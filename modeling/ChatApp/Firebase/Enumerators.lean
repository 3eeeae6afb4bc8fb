import ChatApp.Firebase.SortedDictionary

/-!
# Walking through a sorted dictionary

`getPredecessorKey:` and the enumerators of `FArraySortedDictionary` (a position in the array) and
`FTreeSortedDictionary` (a stack of nodes, `FTreeSortedDictionaryEnumerator`).

- `getPredecessorKey_eq`: the key before a given one, on arrays and on trees;
- `pending`, `nextObjects_tree`: the keys that a stack still stands for are what it answers;
- `nextObjects_keyEnumeratorFrom`, `nextObjects_reverseKeyEnumeratorFrom`: from a start key on, arrays and trees answer
  the same keys;
- `nextObjects_keyEnumerator`: backwards and without a start key, a tree answers nothing;
- `run_walks`: all of these, after any run of insertions and removals.
-/

namespace ChatApp

open Lib (Assoc.Sorted)

variable {κ α : Type}

namespace LLRBNode

def keys (t : LLRBNode κ α) : List κ := t.toList.map Prod.fst

@[simp] theorem keys_empty : (empty : LLRBNode κ α).keys = [] := rfl

@[simp] theorem keys_node (k : κ) (v : α) (c : Color) (l r : LLRBNode κ α) :
    (node k v c l r).keys = l.keys ++ k :: r.keys := by
  simp [keys]

def maxKey : LLRBNode κ α → Option κ
  | empty => none
  | node k _ _ _ empty => some k
  | node _ _ _ _ r => r.maxKey

theorem maxKey_eq (t : LLRBNode κ α) : t.maxKey = t.keys.getLast? := by
  fun_induction maxKey t with
  | case1 => rfl
  | case2 k v c l => simp
  | case3 k v c l r hne ih =>
    rw [ih, keys_node]
    cases r with
    | empty => exact absurd rfl hne
    | node k' v' c' l' r' => simp [List.getLast?_append, List.getLast?_cons]

theorem keys_lt_of_sorted [LinearOrder κ] {k : κ} {v : α} {c : Color} {l r : LLRBNode κ α}
    (hs : Assoc.Sorted (node k v c l r).toList) : (∀ j ∈ l.keys, j < k) ∧ ∀ j ∈ r.keys, k < j := by
  obtain ⟨-, -, hlt, hgt⟩ := Lib.Assoc.sorted_middle.1 hs
  exact ⟨List.forall_mem_map.2 hlt, List.forall_mem_map.2 hgt⟩

end LLRBNode

/-! ## The key before -/

namespace SortedDictionary

variable [LinearOrder κ]

def keys (d : SortedDictionary κ α) : List κ := d.entries.map Prod.fst

/-- The walk of `FTreeSortedDictionary.getPredecessorKey:`, with the last node left of the path. -/
def treePredecessor (key : κ) : LLRBNode κ α → Option κ → Except Fault (Option κ)
  | .empty, _ => .error (.exception "NonexistentKey" "getPredecessorKey called with nonexistent key.")
  | .node k _ _ l r, rightParent =>
    if key = k then if l.isEmpty then .ok rightParent else .ok l.maxKey
    else if key < k then treePredecessor key l rightParent
    else treePredecessor key r (some k)

/-- `FArraySortedDictionary.getPredecessorKey:`. -/
def arrayPredecessor (key : κ) (es : List (κ × α)) : Except Fault (Option κ) :=
  match ArrayEntries.findKey key es with
  | none => .error (.exception "NSInternalInconsistencyException" "Can't get predecessor key for non-existent key")
  | some 0 => .ok none
  | some (pos + 1) => .ok (es[pos]?.map Prod.fst)

def getPredecessorKey (d : SortedDictionary κ α) (key : κ) : Except Fault (Option κ) :=
  match d with
  | array es => arrayPredecessor key es
  | tree root => treePredecessor key root none

theorem treePredecessor_eq {key : κ} {t : LLRBNode κ α} (hs : Assoc.Sorted t.toList) (hk : key ∈ t.keys)
    (p : Option κ) : treePredecessor key t p = .ok ((t.keys.filter (· < key)).getLast?.or p) := by
  induction t generalizing p with
  | empty => simp at hk
  | node k v c l r ihl ihr =>
    obtain ⟨hsl, hsr, -, -⟩ := Lib.Assoc.sorted_middle.1 hs
    obtain ⟨hlt, hgt⟩ := LLRBNode.keys_lt_of_sorted hs
    rw [LLRBNode.keys_node] at hk ⊢
    unfold treePredecessor
    split
    · rename_i he
      subst he
      have hl : l.keys.filter (· < key) = l.keys := List.filter_eq_self.2 fun j hj => by simpa using hlt j hj
      have hr : r.keys.filter (· < key) = [] := List.filter_eq_nil_iff.2 fun j hj => by simpa using (hgt j hj).le
      rw [List.filter_append, List.filter_cons_of_neg (by simp), hl, hr, List.append_nil, ← LLRBNode.maxKey_eq]
      split
      · rename_i hemp
        rw [LLRBNode.isEmpty_iff.1 hemp]
        rfl
      · rename_i hemp
        cases hmax : l.maxKey with
        | some m => rfl
        | none =>
          rw [LLRBNode.maxKey_eq, List.getLast?_eq_none_iff] at hmax
          cases l with
          | empty => exact absurd rfl hemp
          | node k' v' c' l' r' => simp at hmax
    · rename_i hne
      split
      · rename_i hlt'
        have hr : (k :: r.keys).filter (· < key) = [] := by
          apply List.filter_eq_nil_iff.2
          intro j hj
          rcases List.mem_cons.1 hj with rfl | hj
          · simpa using hlt'.le
          · simpa using (hlt'.trans (hgt j hj)).le
        have hkl : key ∈ l.keys := by
          rcases List.mem_append.1 hk with hk | hk
          · exact hk
          · rcases List.mem_cons.1 hk with hk | hk
            · exact absurd hk hne
            · exact absurd hlt' (hgt key hk).asymm
        rw [ihl hsl hkl, List.filter_append, hr, List.append_nil]
      · rename_i hle
        have hgt' : k < key := lt_of_le_of_ne (not_lt.1 hle) (Ne.symm hne)
        have hkr : key ∈ r.keys := by
          rcases List.mem_append.1 hk with hk | hk
          · exact absurd hgt' (hlt key hk).asymm
          · exact (List.mem_cons.1 hk).resolve_left hne
        rw [ihr hsr hkr, List.filter_append, List.filter_cons_of_pos (by simpa using hgt')]
        simp [List.getLast?_append, List.getLast?_cons]

theorem treePredecessor_absent {key : κ} {t : LLRBNode κ α} (hk : key ∉ t.keys) (p : Option κ) :
    ∃ f, treePredecessor key t p = .error f := by
  induction t generalizing p with
  | empty => exact ⟨_, rfl⟩
  | node k v c l r ihl ihr =>
    simp only [LLRBNode.keys_node, List.mem_append, List.mem_cons, not_or] at hk
    unfold treePredecessor
    rw [if_neg hk.2.1]
    split
    · exact ihl hk.1 p
    · exact ihr hk.2.2 _

/-- **The key before**: the greatest smaller key, and an exception for a key that is not there. -/
theorem getPredecessorKey_eq {d : SortedDictionary κ α} (h : Valid d) (key : κ) :
    (key ∈ d.keys → d.getPredecessorKey key = .ok (d.keys.filter (· < key)).getLast?) ∧
    (key ∉ d.keys → ∃ f, d.getPredecessorKey key = .error f) := by
  cases h with
  | tree hs hb =>
    refine ⟨fun hk => ?_, fun hk => treePredecessor_absent hk none⟩
    have hp := treePredecessor_eq hs hk none
    rw [Option.or_none] at hp
    exact hp
  | @array es hs hlen =>
    show (_ → arrayPredecessor key es = _) ∧ (_ → ∃ f, arrayPredecessor key es = .error f)
    unfold arrayPredecessor
    cases hf : ArrayEntries.findKey key es with
    | none =>
      refine ⟨fun hk => ?_, fun _ => ⟨_, rfl⟩⟩
      obtain ⟨e, he, rfl⟩ := List.mem_map.1 hk
      exact absurd rfl ((ArrayEntries.findKey_eq_none hs).1 hf e he)
    | some pos =>
      obtain ⟨v, as, bs, rfl, rfl⟩ := ArrayEntries.findKey_eq_some hf
      obtain ⟨-, -, hlt, hgt⟩ := Lib.Assoc.sorted_middle.1 hs
      have hkeys : ((array (as ++ (key, v) :: bs)).keys.filter (· < key)) = as.map Prod.fst := by
        have hl : (as.map Prod.fst).filter (· < key) = as.map Prod.fst :=
          List.filter_eq_self.2 (List.forall_mem_map.2 fun e he => by simpa using hlt e he)
        have hr : (bs.map Prod.fst).filter (· < key) = [] :=
          List.filter_eq_nil_iff.2 (List.forall_mem_map.2 fun e he => by simpa using (hgt e he).le)
        rw [keys, entries, List.map_append, List.map_cons, List.filter_append,
          List.filter_cons_of_neg (by simp), hl, hr, List.append_nil]
      refine ⟨fun _ => ?_, fun hk => absurd (by simp [keys, entries]) hk⟩
      rw [hkeys]
      rcases List.eq_nil_or_concat as with rfl | ⟨as, e, rfl⟩
      · rfl
      · simp only [List.length_concat]
        simp

/-! ## Enumerators -/

/-- The position in an array, or the stack of a tree. -/
inductive Enumerator (κ α : Type) : Type
  | array (keys : List κ) (pos : Int) (isReverse : Bool)
  | tree (stack : List (LLRBNode κ α)) (isReverse : Bool)

/-- The nodes on the way down to the left. -/
def pushLeft : LLRBNode κ α → List (LLRBNode κ α) → List (LLRBNode κ α)
  | .empty, stack => stack
  | .node k v c l r, stack => pushLeft l (.node k v c l r :: stack)

def pushRight : LLRBNode κ α → List (LLRBNode κ α) → List (LLRBNode κ α)
  | .empty, stack => stack
  | .node k v c l r, stack => pushRight r (.node k v c l r :: stack)

namespace Enumerator

/-- The stack at the start: the comparison is flipped when going in reverse, with and without a start key. -/
def startStack (startKey : Option κ) (isReverse : Bool) : LLRBNode κ α → List (LLRBNode κ α) → List (LLRBNode κ α)
  | .empty, stack => stack
  | .node k v c l r, stack =>
    let order := match startKey with
      | some s => cmp k s
      | none => .gt
    match if isReverse then order.swap else order with
    | .lt => if isReverse then startStack startKey isReverse l stack else startStack startKey isReverse r stack
    | .eq => .node k v c l r :: stack
    | .gt =>
      if isReverse then startStack startKey isReverse r (.node k v c l r :: stack)
      else startStack startKey isReverse l (.node k v c l r :: stack)

def nextObject : Enumerator κ α → Option (κ × Enumerator κ α)
  | array keys pos isReverse =>
    if 0 ≤ pos then keys[pos.toNat]?.map fun k => (k, array keys (if isReverse then pos - 1 else pos + 1) isReverse)
    else none
  | tree [] _ => none
  | tree (.empty :: _) _ => none
  | tree (.node k _ _ l r :: stack) isReverse =>
    some (k, tree (if isReverse then pushRight l stack else pushLeft r stack) isReverse)

/-- The first answers. -/
def nextObjects : Nat → Enumerator κ α → List κ
  | 0, _ => []
  | n + 1, e =>
    match e.nextObject with
    | some (k, e') => k :: nextObjects n e'
    | none => []

/-! ### Trees -/

/-- The keys that a stack stands for. -/
def pending (isReverse : Bool) : List (LLRBNode κ α) → List κ
  | [] => []
  | .empty :: _ => []
  | .node k _ _ l r :: stack => k :: (if isReverse then l.keys.reverse else r.keys) ++ pending isReverse stack

omit [LinearOrder κ] in
theorem pending_pushLeft (t : LLRBNode κ α) (stack : List (LLRBNode κ α)) :
    pending false (pushLeft t stack) = t.keys ++ pending false stack := by
  induction t generalizing stack with
  | empty => rfl
  | node k v c l r ihl ihr =>
    rw [pushLeft, ihl, LLRBNode.keys_node, pending]
    simp

omit [LinearOrder κ] in
theorem pending_pushRight (t : LLRBNode κ α) (stack : List (LLRBNode κ α)) :
    pending true (pushRight t stack) = t.keys.reverse ++ pending true stack := by
  induction t generalizing stack with
  | empty => rfl
  | node k v c l r ihl ihr =>
    rw [pushRight, ihr, LLRBNode.keys_node, pending]
    simp

omit [LinearOrder κ] in
/-- **A stack answers the keys it stands for.** -/
theorem nextObjects_tree (n : Nat) (stack : List (LLRBNode κ α)) (isReverse : Bool) :
    nextObjects n (tree stack isReverse) = (pending isReverse stack).take n := by
  induction n generalizing stack with
  | zero => rfl
  | succ n ih =>
    match stack with
    | [] => rfl
    | .empty :: _ => rfl
    | .node k v c l r :: stack =>
      rw [nextObjects, nextObject, pending]
      simp only [ih]
      cases isReverse with
      | true => simp [pending_pushRight]
      | false => simp [pending_pushLeft]

theorem filter_ge_of_lt {k s : κ} {l r : List κ} (hl : ∀ j ∈ l, j < k) (hk : k < s) :
    (l ++ k :: r).filter (s ≤ ·) = r.filter (s ≤ ·) := by
  have hnil : l.filter (s ≤ ·) = [] := List.filter_eq_nil_iff.2 fun j hj => by simpa using (hl j hj).trans hk
  rw [List.filter_append, hnil, List.filter_cons_of_neg (by simpa using hk), List.nil_append]

theorem filter_ge_of_ge {k s : κ} {l r : List κ} (hr : ∀ j ∈ r, k < j) (hk : s ≤ k) :
    (l ++ k :: r).filter (s ≤ ·) = l.filter (s ≤ ·) ++ k :: r := by
  have hall : r.filter (s ≤ ·) = r := List.filter_eq_self.2 fun j hj => by simpa using hk.trans (hr j hj).le
  rw [List.filter_append, List.filter_cons_of_pos (by simpa using hk), hall]

theorem filter_le_of_gt {k s : κ} {l r : List κ} (hr : ∀ j ∈ r, k < j) (hk : s < k) :
    (l ++ k :: r).filter (· ≤ s) = l.filter (· ≤ s) := by
  have hnil : r.filter (· ≤ s) = [] := List.filter_eq_nil_iff.2 fun j hj => by simpa using hk.trans (hr j hj)
  rw [List.filter_append, List.filter_cons_of_neg (by simpa using hk), hnil, List.append_nil]

theorem filter_le_of_le {k s : κ} {l r : List κ} (hl : ∀ j ∈ l, j < k) (hk : k ≤ s) :
    (l ++ k :: r).filter (· ≤ s) = l ++ k :: r.filter (· ≤ s) := by
  have hall : l.filter (· ≤ s) = l := List.filter_eq_self.2 fun j hj => by simpa using (hl j hj).le.trans hk
  rw [List.filter_append, List.filter_cons_of_pos (by simpa using hk), hall]

theorem startStack_some (s k : κ) (v : α) (c : Color) (l r : LLRBNode κ α) (isReverse : Bool)
    (stack : List (LLRBNode κ α)) : startStack (some s) isReverse (.node k v c l r) stack =
      match if isReverse then (cmp k s).swap else cmp k s with
      | .lt => if isReverse then startStack (some s) isReverse l stack else startStack (some s) isReverse r stack
      | .eq => .node k v c l r :: stack
      | .gt =>
        if isReverse then startStack (some s) isReverse r (.node k v c l r :: stack)
        else startStack (some s) isReverse l (.node k v c l r :: stack) := rfl

theorem startStack_none (k : κ) (v : α) (c : Color) (l r : LLRBNode κ α) (isReverse : Bool)
    (stack : List (LLRBNode κ α)) : startStack none isReverse (.node k v c l r) stack =
      startStack none isReverse l (if isReverse then stack else .node k v c l r :: stack) := by
  cases isReverse <;> rfl

theorem pending_startStack (s : κ) {t : LLRBNode κ α} (hs : Assoc.Sorted t.toList) (stack : List (LLRBNode κ α)) :
    pending false (startStack (some s) false t stack) = t.keys.filter (s ≤ ·) ++ pending false stack := by
  induction t generalizing stack with
  | empty => rfl
  | node k v c l r ihl ihr =>
    obtain ⟨hsl, hsr, -, -⟩ := Lib.Assoc.sorted_middle.1 hs
    obtain ⟨hlt, hgt⟩ := LLRBNode.keys_lt_of_sorted hs
    rw [LLRBNode.keys_node]
    rcases lt_trichotomy k s with h | h | h
    · have hcmp : cmp k s = .lt := (cmp_eq_lt_iff k s).2 h
      rw [filter_ge_of_lt hlt h, ← ihr hsr, startStack_some, hcmp]
      simp
    · subst h
      have hnil : l.keys.filter (k ≤ ·) = [] := List.filter_eq_nil_iff.2 fun j hj => by simpa using hlt j hj
      rw [filter_ge_of_ge hgt le_rfl, hnil, startStack_some, cmp_self_eq_eq]
      simp [pending]
    · have hcmp : cmp k s = .gt := (cmp_eq_gt_iff k s).2 h
      rw [filter_ge_of_ge hgt h.le, startStack_some, hcmp]
      simp [ihl hsl, pending]

theorem pending_startStack_none (t : LLRBNode κ α) (stack : List (LLRBNode κ α)) :
    pending false (startStack none false t stack) = t.keys ++ pending false stack := by
  induction t generalizing stack with
  | empty => rfl
  | node k v c l r ihl ihr => rw [startStack_none, ihl]; simp [pending]

theorem pending_startStack_reverse (s : κ) {t : LLRBNode κ α} (hs : Assoc.Sorted t.toList)
    (stack : List (LLRBNode κ α)) :
    pending true (startStack (some s) true t stack) = (t.keys.filter (· ≤ s)).reverse ++ pending true stack := by
  induction t generalizing stack with
  | empty => rfl
  | node k v c l r ihl ihr =>
    obtain ⟨hsl, hsr, -, -⟩ := Lib.Assoc.sorted_middle.1 hs
    obtain ⟨hlt, hgt⟩ := LLRBNode.keys_lt_of_sorted hs
    rw [LLRBNode.keys_node]
    rcases lt_trichotomy k s with h | h | h
    · have hcmp : cmp k s = .lt := (cmp_eq_lt_iff k s).2 h
      rw [filter_le_of_le hlt h.le, startStack_some, hcmp]
      simp [ihr hsr, pending]
    · subst h
      have hnil : r.keys.filter (· ≤ k) = [] := List.filter_eq_nil_iff.2 fun j hj => by simpa using hgt j hj
      rw [filter_le_of_le hlt le_rfl, hnil, startStack_some, cmp_self_eq_eq]
      simp [pending]
    · have hcmp : cmp k s = .gt := (cmp_eq_gt_iff k s).2 h
      rw [filter_le_of_gt hgt h, ← ihl hsl, startStack_some, hcmp]
      simp

/-- Backwards and without a start key every node is passed by. -/
theorem startStack_reverse_none (t : LLRBNode κ α) (stack : List (LLRBNode κ α)) :
    startStack none true t stack = stack := by
  induction t generalizing stack with
  | empty => rfl
  | node k v c l r ihl ihr => rw [startStack_none, ihl, if_pos rfl]

/-! ### Arrays -/

omit [LinearOrder κ] in
theorem nextObjects_array (n p : Nat) (keys : List κ) :
    nextObjects n (array keys p false : Enumerator κ α) = (keys.drop p).take n := by
  induction n generalizing p with
  | zero => rfl
  | succ n ih =>
    rw [nextObjects, nextObject]
    simp only [Int.natCast_nonneg, if_true, Int.toNat_natCast, Bool.false_eq_true, if_false]
    cases hk : keys[p]? with
    | none =>
      have hp : keys.drop p = [] := List.drop_eq_nil_of_le (List.getElem?_eq_none_iff.1 hk)
      simp [hp]
    | some k =>
      obtain ⟨hlt, rfl⟩ := List.getElem?_eq_some_iff.1 hk
      have hnext := ih (p + 1)
      rw [Int.natCast_add, Int.natCast_one] at hnext
      rw [List.drop_eq_getElem_cons hlt, List.take_succ_cons, ← hnext]
      rfl

omit [LinearOrder κ] in
theorem nextObjects_array_reverse (n p : Nat) {keys : List κ} (hp : p ≤ keys.length) :
    nextObjects n (array keys (p - 1 : Int) true : Enumerator κ α) = (keys.take p).reverse.take n := by
  induction n generalizing p with
  | zero => rfl
  | succ n ih =>
    cases p with
    | zero => rfl
    | succ p =>
      have hpos : ((p + 1 : Nat) : Int) - 1 = p := by omega
      obtain ⟨k, hk⟩ : ∃ k, keys[p]? = some k := ⟨_, List.getElem?_eq_getElem (by omega)⟩
      rw [hpos, nextObjects, nextObject]
      simp only [Int.natCast_nonneg, if_true, Int.toNat_natCast, hk, Option.map_some]
      obtain ⟨hlt, rfl⟩ := List.getElem?_eq_some_iff.1 hk
      rw [ih p (by omega), List.take_succ_eq_append_getElem hlt, List.reverse_append, List.reverse_singleton,
        List.singleton_append, List.take_succ_cons]

end Enumerator

/-! ### Dictionaries -/

def keyEnumeratorFrom (d : SortedDictionary κ α) (startKey : κ) : Enumerator κ α :=
  match d with
  | array es => .array (es.map Prod.fst) (ArrayEntries.findInsertPositionForKey startKey es) false
  | tree root => .tree (Enumerator.startStack (some startKey) false root []) false

/-- Without an exact match the position found is after the closest match. -/
def reverseKeyEnumeratorFrom (d : SortedDictionary κ α) (startKey : κ) : Enumerator κ α :=
  match d with
  | array es =>
    let startPos := ArrayEntries.findInsertPositionForKey startKey es
    .array (es.map Prod.fst) (if es[startPos]?.map Prod.fst = some startKey then startPos else startPos - 1 : Int) true
  | tree root => .tree (Enumerator.startStack (some startKey) true root []) true

def keyEnumerator : SortedDictionary κ α → Enumerator κ α
  | array es => .array (es.map Prod.fst) 0 false
  | tree root => .tree (Enumerator.startStack none false root []) false

def reverseKeyEnumerator : SortedDictionary κ α → Enumerator κ α
  | array es => .array (es.map Prod.fst) (es.length - 1) true
  | tree root => .tree (Enumerator.startStack none true root []) true

theorem filter_ge_eq_drop (s : κ) {es : List (κ × α)} (hs : Assoc.Sorted es) :
    (es.map Prod.fst).filter (s ≤ ·) = (es.map Prod.fst).drop (ArrayEntries.findInsertPositionForKey s es) := by
  induction es with
  | nil => rfl
  | cons e es ih =>
    obtain ⟨k, v⟩ := e
    obtain ⟨hlt, hs⟩ := Lib.Assoc.sorted_cons.1 hs
    rw [List.map_cons, ArrayEntries.findInsertPositionForKey]
    split
    · rename_i hk
      rw [List.filter_cons_of_neg (by simpa using hk), List.drop_succ_cons, ih hs]
    · rename_i hk
      have hall : (es.map Prod.fst).filter (s ≤ ·) = es.map Prod.fst :=
        List.filter_eq_self.2 (List.forall_mem_map.2 fun e he => by simpa using (not_lt.1 hk).trans (hlt e he).le)
      rw [List.filter_cons_of_pos (by simpa using hk), hall, List.drop_zero]

/-- The keys up to `s`: those before the insert position, and `s` itself when it is there. -/
theorem filter_le_eq_take (s : κ) {es : List (κ × α)} (hs : Assoc.Sorted es) :
    (es.map Prod.fst).filter (· ≤ s) = (es.map Prod.fst).take
      (if es[ArrayEntries.findInsertPositionForKey s es]?.map Prod.fst = some s
        then ArrayEntries.findInsertPositionForKey s es + 1 else ArrayEntries.findInsertPositionForKey s es) := by
  induction es with
  | nil => rfl
  | cons e es ih =>
    obtain ⟨k, v⟩ := e
    obtain ⟨hlt, hs⟩ := Lib.Assoc.sorted_cons.1 hs
    rw [List.map_cons, ArrayEntries.findInsertPositionForKey]
    split
    · rename_i hk
      rw [List.filter_cons_of_pos (by simpa using hk.le), ih hs, List.getElem?_cons_succ]
      split <;> rw [List.take_succ_cons]
    · rename_i hk
      simp only [List.getElem?_cons_zero, Option.map_some, Option.some.injEq]
      have hnil : ∀ {m}, s ≤ m → (∀ e ∈ es, m < e.1) → (es.map Prod.fst).filter (· ≤ s) = [] := fun hm h =>
        List.filter_eq_nil_iff.2 (List.forall_mem_map.2 fun e he => by simpa using hm.trans_lt (h e he))
      split
      · rename_i he
        subst he
        rw [List.filter_cons_of_pos (by simp), hnil le_rfl hlt, List.take_succ_cons, List.take_zero]
      · rename_i hne
        have hsk : s < k := lt_of_le_of_ne (not_lt.1 hk) (Ne.symm hne)
        rw [List.filter_cons_of_neg (by simpa using hsk), hnil hsk.le hlt, List.take_zero]

theorem findInsertPosition_le (s : κ) (es : List (κ × α)) :
    ArrayEntries.findInsertPositionForKey s es ≤ es.length := by
  induction es with
  | nil => exact Nat.le_refl _
  | cons e es ih =>
    unfold ArrayEntries.findInsertPositionForKey
    split
    · exact Nat.succ_le_succ ih
    · exact Nat.zero_le _

/-- **Forwards from a key**: the keys from it on, in order, whatever holds them. -/
theorem nextObjects_keyEnumeratorFrom {d : SortedDictionary κ α} (h : Valid d) (s : κ) (n : Nat) :
    (d.keyEnumeratorFrom s).nextObjects n = (d.keys.filter (s ≤ ·)).take n := by
  cases h with
  | @array es hs hlen =>
    rw [keyEnumeratorFrom, Enumerator.nextObjects_array, ← filter_ge_eq_drop s hs]
    rfl
  | @tree root m hs hb =>
    rw [keyEnumeratorFrom, Enumerator.nextObjects_tree, Enumerator.pending_startStack s hs, Enumerator.pending,
      List.append_nil]
    rfl

/-- **Backwards from a key**: the keys up to it, in reverse. -/
theorem nextObjects_reverseKeyEnumeratorFrom {d : SortedDictionary κ α} (h : Valid d) (s : κ) (n : Nat) :
    (d.reverseKeyEnumeratorFrom s).nextObjects n = (d.keys.filter (· ≤ s)).reverse.take n := by
  cases h with
  | @tree root m hs hb =>
    rw [reverseKeyEnumeratorFrom, Enumerator.nextObjects_tree, Enumerator.pending_startStack_reverse s hs,
      Enumerator.pending, List.append_nil]
    rfl
  | @array es hs hlen =>
    have hle := findInsertPosition_le s es
    have hkeys : (array es : SortedDictionary κ α).keys = es.map Prod.fst := rfl
    rw [hkeys, filter_le_eq_take s hs, reverseKeyEnumeratorFrom]
    split
    · rename_i hfound
      have hlt : ArrayEntries.findInsertPositionForKey s es < es.length := by
        by_contra hge
        rw [List.getElem?_eq_none (by omega)] at hfound
        cases hfound
      rw [← Enumerator.nextObjects_array_reverse (α := α) n _ (by rw [List.length_map]; omega)]
      congr 2
      omega
    · exact Enumerator.nextObjects_array_reverse n _ (by rw [List.length_map]; exact hle)

/-- **All keys**, forwards; and backwards, where a tree answers none of them. -/
theorem nextObjects_keyEnumerator {d : SortedDictionary κ α} (n : Nat) :
    d.keyEnumerator.nextObjects n = d.keys.take n ∧
    d.reverseKeyEnumerator.nextObjects n = match d with
      | array es => (es.map Prod.fst).reverse.take n
      | tree _ => [] := by
  cases d with
  | array es =>
    refine ⟨Enumerator.nextObjects_array n 0 _, ?_⟩
    have hall : (es.map Prod.fst).take es.length = es.map Prod.fst := List.take_of_length_le (by simp)
    have hlen : es.length ≤ (es.map Prod.fst).length := by simp
    have hrev := Enumerator.nextObjects_array_reverse (α := α) n es.length hlen
    rw [hall] at hrev
    exact hrev
  | tree root =>
    rw [keyEnumerator, reverseKeyEnumerator, Enumerator.nextObjects_tree, Enumerator.nextObjects_tree,
      Enumerator.pending_startStack_none, Enumerator.startStack_reverse_none, Enumerator.pending, Enumerator.pending,
      List.append_nil, List.take_nil]
    exact ⟨rfl, rfl⟩

/-! ## After any run -/

/-- The entries that a run of operations leaves. -/
def runKeys (ops : List (Op κ α)) : List κ := (ops.foldl Op.onEntries []).map Prod.fst

/-- **Walking through a dictionary, however it was built.** From a start key on and backwards from it the enumerators
answer the keys on that side in order; backwards from the end only an array answers, a tree has nothing to say. The key
before a key is the greatest smaller one, and an absent key raises. -/
theorem run_walks (ops : List (Op κ α)) : ∃ d : SortedDictionary κ α, ops.foldlM step empty = .ok d ∧
    (∀ n, d.keyEnumerator.nextObjects n = (runKeys ops).take n) ∧
    (∀ s n, (d.keyEnumeratorFrom s).nextObjects n = ((runKeys ops).filter (s ≤ ·)).take n) ∧
    (∀ s n, (d.reverseKeyEnumeratorFrom s).nextObjects n = ((runKeys ops).filter (· ≤ s)).reverse.take n) ∧
    (∀ n, d.reverseKeyEnumerator.nextObjects n = match d with
      | array _ => (runKeys ops).reverse.take n
      | tree _ => []) ∧
    (∀ key ∈ runKeys ops, d.getPredecessorKey key = .ok ((runKeys ops).filter (· < key)).getLast?) ∧
    ∀ key ∉ runKeys ops, ∃ f, d.getPredecessorKey key = .error f := by
  obtain ⟨d, hrun, hv, he⟩ := foldlM_step valid_empty ops
  have hkeys : d.keys = runKeys ops := congrArg (List.map Prod.fst) he
  refine ⟨d, hrun, fun n => ?_, fun s n => ?_, fun s n => ?_, fun n => ?_, fun key hk => ?_, fun key hk => ?_⟩
  · rw [(nextObjects_keyEnumerator n).1, hkeys]
  · rw [nextObjects_keyEnumeratorFrom hv, hkeys]
  · rw [nextObjects_reverseKeyEnumeratorFrom hv, hkeys]
  · rw [(nextObjects_keyEnumerator n).2, ← hkeys]
    cases d with
    | array es => rfl
    | tree root => rfl
  · rw [(getPredecessorKey_eq hv key).1 (hkeys ▸ hk), hkeys]
  · exact (getPredecessorKey_eq hv key).2 (hkeys ▸ hk)

end SortedDictionary

end ChatApp
