import ChatApp.Firebase.LLRB.Builder
import ChatApp.Firebase.LLRB.Remove

/-!
# Sorted dictionaries

`FImmutableSortedDictionary`, the children of every node and of every write tree: an array of entries up to 25 of them
(`FArraySortedDictionary`), and from then on a red-black tree (`FTreeSortedDictionary`), also when entries are removed
again.

- `Valid`: the entries are sorted, an array is small and a tree is balanced with a black root;
- `insertKey_eq`, `removeKey_eq`: the operations on the entries are those of `Lib.Assoc`;
- `run_refines`: so they are in every run, in which no call raises and `check` passes;
- `get_eq`, `getPredecessorKey_eq`: what is read from the arrays and the trees.
-/

namespace ChatApp

open Lib (Assoc.insertKey Assoc.removeKey Assoc.Sorted)

/-! ## The loops over an array -/

namespace ArrayEntries

variable {κ α : Type} [LinearOrder κ]

def findInsertPositionForKey (key : κ) : List (κ × α) → Nat
  | [] => 0
  | (k, _) :: es => if k < key then findInsertPositionForKey key es + 1 else 0

def findKey (key : κ) : List (κ × α) → Option Nat
  | [] => none
  | (k, _) :: es =>
    if key = k then some 0
    else if key < k then none
    else (findKey key es).map (· + 1)

variable {key : κ} {es : List (κ × α)}

theorem findKey_eq_none (hs : Assoc.Sorted es) : findKey key es = none ↔ ∀ e ∈ es, e.1 ≠ key := by
  induction es with
  | nil => simp [findKey]
  | cons e es ih =>
    obtain ⟨k, v⟩ := e
    obtain ⟨hlt, hs⟩ := Lib.Assoc.sorted_cons.1 hs
    unfold findKey
    split
    · rename_i he
      simp [he]
    · rename_i hne
      split
      · rename_i hk
        simp only [true_iff, List.forall_mem_cons]
        exact ⟨Ne.symm hne, fun e he => (hk.trans (hlt e he)).ne'⟩
      · rw [Option.map_eq_none_iff, ih hs, List.forall_mem_cons]
        exact (and_iff_right (Ne.symm hne)).symm

/-- A found position cuts the entries at the key. -/
theorem findKey_eq_some {pos : Nat} (h : findKey key es = some pos) :
    ∃ v as bs, es = as ++ (key, v) :: bs ∧ as.length = pos := by
  induction es generalizing pos with
  | nil => cases h
  | cons e es ih =>
    obtain ⟨k, v⟩ := e
    unfold findKey at h
    split at h
    · rename_i he
      cases h
      exact ⟨v, [], es, by rw [he]; rfl, rfl⟩
    · split at h
      · cases h
      · obtain ⟨p, hp, rfl⟩ := Option.map_eq_some_iff.1 h
        obtain ⟨w, as, bs, rfl, rfl⟩ := ih hp
        exact ⟨w, (k, v) :: as, bs, rfl, rfl⟩

theorem insertIdx_findInsertPosition (hne : ∀ e ∈ es, e.1 ≠ key) (v : α) :
    es.insertIdx (findInsertPositionForKey key es) (key, v) = Assoc.insertKey key v es := by
  induction es with
  | nil => rfl
  | cons e es ih =>
    obtain ⟨k, w⟩ := e
    obtain ⟨hk, hne⟩ := List.forall_mem_cons.1 hne
    unfold findInsertPositionForKey Assoc.insertKey
    split
    · rename_i hlt
      rw [List.insertIdx_succ_cons, ih hne, if_neg hlt.asymm, if_neg hlt.ne']
    · rename_i hlt
      rw [if_pos (lt_of_le_of_ne (not_lt.1 hlt) (Ne.symm hk))]
      rfl

end ArrayEntries

/-- `FImmutableSortedDictionary`. -/
inductive SortedDictionary (κ α : Type) : Type
  | array (entries : List (κ × α))
  | tree (root : LLRBNode κ α)

namespace SortedDictionary

variable {κ α : Type}

/-- `SORTED_DICTIONARY_ARRAY_TO_RB_TREE_SIZE_THRESHOLD`. -/
def threshold : Nat := 25

/-- `dictionaryWithComparator:`. -/
def empty : SortedDictionary κ α := array []

/-- What `enumerateKeysAndObjectsUsingBlock:` goes through. -/
def entries : SortedDictionary κ α → List (κ × α)
  | array es => es
  | tree root => root.toList

def count : SortedDictionary κ α → Nat
  | array es => es.length
  | tree root => root.count

variable [LinearOrder κ]

/-- The walk of `FTreeSortedDictionary.get:`. -/
def treeGet (key : κ) : LLRBNode κ α → Option α
  | .empty => none
  | .node k v _ l r =>
    if key = k then some v
    else if key < k then treeGet key l
    else treeGet key r

def get (d : SortedDictionary κ α) (key : κ) : Option α :=
  match d with
  | array es => (ArrayEntries.findKey key es).bind fun pos => es[pos]?.map Prod.snd
  | tree root => treeGet key root

def contains (d : SortedDictionary κ α) (key : κ) : Bool := (d.get key).isSome

def insertKey (d : SortedDictionary κ α) (key : κ) (value : α) : Except Fault (SortedDictionary κ α) :=
  match d with
  | array es =>
    match ArrayEntries.findKey key es with
    | none =>
      if threshold ≤ es.length then do
        let root ← LLRBNode.fromDictionary (es ++ [(key, value)])
        return tree root
      else .ok (array (es.insertIdx (ArrayEntries.findInsertPositionForKey key es) (key, value)))
    | some pos => .ok (array (es.set pos (key, value)))
  | tree root => .ok (tree ((root.insertKey key value).withColor .black))

/-- A key that is not there leaves the tree alone. -/
def removeKey (d : SortedDictionary κ α) (key : κ) : SortedDictionary κ α :=
  match d with
  | array es =>
    match ArrayEntries.findKey key es with
    | none => array es
    | some pos => array (es.eraseIdx pos)
  | tree root =>
    if (tree root).contains key then tree ((LLRBNode.remove key root).withColor .black)
    else tree root

/-! ## Validity -/

/-- Sorted entries, in a small array or a balanced tree. -/
inductive Valid : SortedDictionary κ α → Prop
  | array {es : List (κ × α)} (hs : Assoc.Sorted es) (hlen : es.length ≤ threshold) : Valid (array es)
  | tree {root : LLRBNode κ α} {n : Nat} (hs : Assoc.Sorted root.toList) (hb : LLRBNode.Balanced root .black n) :
    Valid (tree root)

theorem Valid.sorted {d : SortedDictionary κ α} (h : Valid d) : Assoc.Sorted d.entries := by
  cases h with
  | array hs hlen => exact hs
  | tree hs hb => exact hs

theorem treeGet_eq (key : κ) {root : LLRBNode κ α} (hs : Assoc.Sorted root.toList) :
    treeGet key root = root.toList.lookup key := by
  induction root with
  | empty => rfl
  | node k v c l r ihl ihr =>
    obtain ⟨hl, hr, hlt, hgt⟩ := Lib.Assoc.sorted_middle.1 hs
    unfold treeGet
    rw [LLRBNode.toList_node]
    split
    · rename_i he
      subst he
      rw [Lib.Assoc.lookup_middle_self hlt]
    · rename_i hne
      split
      · rename_i hk
        rw [ihl hl, Lib.Assoc.lookup_middle_of_lt hk hgt]
      · rename_i hk
        rw [ihr hr, Lib.Assoc.lookup_middle_of_gt (lt_of_le_of_ne (not_lt.1 hk) (Ne.symm hne)) hlt]

/-- **Reading a key.** -/
theorem get_eq {d : SortedDictionary κ α} (h : Valid d) (key : κ) : d.get key = d.entries.lookup key := by
  cases h with
  | tree hs hb => exact treeGet_eq key hs
  | @array es hs hlen =>
    show (ArrayEntries.findKey key es).bind _ = _
    cases hf : ArrayEntries.findKey key es with
    | none =>
      refine (List.lookup_eq_none_iff.2 fun e he => ?_).symm
      simpa using ((ArrayEntries.findKey_eq_none hs).1 hf e he).symm
    | some pos =>
      obtain ⟨v, as, bs, rfl, rfl⟩ := ArrayEntries.findKey_eq_some hf
      obtain ⟨-, -, hlt, -⟩ := Lib.Assoc.sorted_middle.1 hs
      rw [entries, Lib.Assoc.lookup_middle_self hlt]
      simp

/-- **Inserting** never raises, and puts the entry in its place. -/
theorem insertKey_eq {d : SortedDictionary κ α} (h : Valid d) (key : κ) (value : α) :
    ∃ d', d.insertKey key value = .ok d' ∧ Valid d' ∧ d'.entries = Assoc.insertKey key value d.entries := by
  cases h with
  | @tree root n hs hb =>
    obtain ⟨n', hb'⟩ := (LLRBNode.inserted_insertKey key value hb).withColor
    have hl : ((root.insertKey key value).withColor .black).toList = Assoc.insertKey key value root.toList := by
      rw [LLRBNode.toList_withColor, LLRBNode.toList_insertKey key value hs]
    exact ⟨_, rfl, .tree (hl ▸ hs.insertKey key value) hb', hl⟩
  | @array es hs hlen =>
    have hfind : (array es : SortedDictionary κ α).entries = es := rfl
    rw [hfind]
    cases hf : ArrayEntries.findKey key es with
    | some pos =>
      obtain ⟨v, as, bs, rfl, rfl⟩ := ArrayEntries.findKey_eq_some hf
      obtain ⟨-, -, hlt, -⟩ := Lib.Assoc.sorted_middle.1 hs
      have hset : (as ++ (key, v) :: bs).set as.length (key, value) =
          Assoc.insertKey key value (as ++ (key, v) :: bs) := by
        rw [Lib.Assoc.insertKey_append_right hlt, Assoc.insertKey, if_neg (lt_irrefl key), if_pos rfl]
        simp
      refine ⟨array _, by simp only [insertKey, hf], .array ?_ ?_, hset⟩
      · rw [hset]
        exact hs.insertKey key value
      · rw [List.length_set]
        exact hlen
    | none =>
      have hne := (ArrayEntries.findKey_eq_none hs).1 hf
      simp only [insertKey, hf]
      split
      · -- the array becomes a tree
        have hnd : ((es ++ [(key, value)]).map Prod.fst).Nodup := by
          rw [List.map_append, List.nodup_append]
          refine ⟨?_, List.pairwise_singleton _ _, ?_⟩
          · rw [List.Nodup, List.pairwise_map]
            exact List.Pairwise.imp (fun h => h.ne) hs
          · intro a ha b hb
            obtain ⟨e, he, rfl⟩ := List.mem_map.1 ha
            rw [List.mem_singleton.1 hb]
            exact hne e he
        obtain ⟨t, n, ht, hb, hst, hperm⟩ := LLRBNode.fromDictionary_eq hnd
        refine ⟨tree t, by rw [ht]; rfl, .tree hst hb, hst.ext_mem (hs.insertKey key value) fun e => ?_⟩
        rw [hperm.mem_iff, List.mem_append, List.mem_singleton]
        constructor
        · rintro (he | rfl)
          · exact Lib.Assoc.mem_insertKey_of_ne he (hne e he)
          · exact Lib.Assoc.mem_insertKey_self key value es
        · exact fun he => (Lib.Assoc.mem_insertKey he).symm
      · rename_i hthr
        rw [ArrayEntries.insertIdx_findInsertPosition hne]
        refine ⟨_, rfl, .array (hs.insertKey key value) ?_, rfl⟩
        have hle := Lib.Assoc.length_insertKey_le key value es
        omega

/-- **Removing** takes the entry out. -/
theorem removeKey_eq {d : SortedDictionary κ α} (h : Valid d) (key : κ) :
    Valid (d.removeKey key) ∧ (d.removeKey key).entries = Assoc.removeKey key d.entries := by
  cases h with
  | @tree root n hs hb =>
    have hget := get_eq (.tree hs hb) key
    simp only [removeKey]
    split
    · obtain ⟨⟨n', hb'⟩, hl⟩ := LLRBNode.remove_root key hs hb
      exact ⟨.tree (hl ▸ hs.removeKey key) hb', hl⟩
    · rename_i hc
      refine ⟨.tree hs hb, (Lib.Assoc.removeKey_eq_self fun e he hek => hc ?_).symm⟩
      have hlook : root.toList.lookup key = some e.2 := hs.lookup_of_mem (hek ▸ he)
      rw [contains, hget, entries, hlook]
      rfl
  | @array es hs hlen =>
    cases hf : ArrayEntries.findKey key es with
    | none =>
      have hrem : (array es : SortedDictionary κ α).removeKey key = array es := by simp only [removeKey, hf]
      rw [hrem]
      exact ⟨.array hs hlen, (Lib.Assoc.removeKey_eq_self ((ArrayEntries.findKey_eq_none hs).1 hf)).symm⟩
    | some pos =>
      have hrem : (array es : SortedDictionary κ α).removeKey key = array (es.eraseIdx pos) := by
        simp only [removeKey, hf]
      obtain ⟨v, as, bs, rfl, rfl⟩ := ArrayEntries.findKey_eq_some hf
      obtain ⟨-, -, hlt, hgt⟩ := Lib.Assoc.sorted_middle.1 hs
      have herase : (as ++ (key, v) :: bs).eraseIdx as.length = Assoc.removeKey key (as ++ (key, v) :: bs) := by
        rw [Lib.Assoc.removeKey_middle_self hlt hgt, List.eraseIdx_append_of_length_le (Nat.le_refl _), Nat.sub_self]
        rfl
      rw [hrem]
      refine ⟨.array ?_ ((List.eraseIdx_sublist _ _).length_le.trans hlen), herase⟩
      rw [herase]
      exact hs.removeKey key

/-! ## Runs -/

inductive Op (κ α : Type)
  | insert (key : κ) (value : α)
  | remove (key : κ)

def step (d : SortedDictionary κ α) : Op κ α → Except Fault (SortedDictionary κ α)
  | .insert key value => d.insertKey key value
  | .remove key => .ok (d.removeKey key)

/-- The operation on sorted entries. -/
def Op.onEntries (es : List (κ × α)) : Op κ α → List (κ × α)
  | .insert key value => Assoc.insertKey key value es
  | .remove key => Assoc.removeKey key es

theorem step_eq {d : SortedDictionary κ α} (h : Valid d) (op : Op κ α) :
    ∃ d', d.step op = .ok d' ∧ Valid d' ∧ d'.entries = op.onEntries d.entries := by
  cases op with
  | insert key value => exact insertKey_eq h key value
  | remove key => exact ⟨_, rfl, removeKey_eq h key⟩

theorem valid_empty : Valid (empty : SortedDictionary κ α) := .array Lib.Assoc.sorted_nil (Nat.zero_le _)

theorem foldlM_step {d : SortedDictionary κ α} (h : Valid d) (ops : List (Op κ α)) :
    ∃ d', ops.foldlM step d = .ok d' ∧ Valid d' ∧ d'.entries = ops.foldl Op.onEntries d.entries := by
  induction ops generalizing d with
  | nil => exact ⟨d, rfl, h, rfl⟩
  | cons op ops ih =>
    obtain ⟨d₁, hstep, hv₁, he₁⟩ := step_eq h op
    obtain ⟨d₂, hrun, hv₂, he₂⟩ := ih hv₁
    refine ⟨d₂, ?_, hv₂, by rw [he₂, he₁, List.foldl_cons]⟩
    rw [List.foldlM_cons, hstep]
    exact hrun

/-- **The dictionary refines a sorted list.** However keys are inserted and removed, no call raises, the entries are
those of a sorted association list, every key reads its entry, and a tree passes its own `check` and `checkMaxDepth`,
with ways down of logarithmic length. -/
theorem run_refines (ops : List (Op κ α)) : ∃ d : SortedDictionary κ α, ops.foldlM step empty = .ok d ∧
    d.entries = ops.foldl Op.onEntries [] ∧ (∀ key, d.get key = (ops.foldl Op.onEntries []).lookup key) ∧
    ∀ root, d = tree root → (∃ n, root.check = .ok n) ∧ root.checkMaxDepth = .ok true ∧
      root.depth ≤ 2 * Nat.log2 (d.entries.length + 1) := by
  obtain ⟨d, hrun, hv, he⟩ := foldlM_step valid_empty ops
  have he' : d.entries = ops.foldl Op.onEntries [] := he
  refine ⟨d, hrun, he', fun key => by rw [get_eq hv, he'], fun root hr => ?_⟩
  subst hr
  cases hv with
  | @tree _ n hs hb =>
    refine ⟨⟨n, LLRBNode.check_eq_ok.2 ⟨_, hb⟩⟩, hb.checkMaxDepth_eq, ?_⟩
    rw [entries, ← LLRBNode.count_eq]
    exact hb.depth_le_log

end SortedDictionary

end ChatApp
