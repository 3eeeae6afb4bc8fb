import ChatApp.Lib.Assoc
import ChatApp.Lib.Leaves

/-!
# Trees of values at paths

`FImmutableTree`: a tree with a value at some of its paths and the children in a sorted dictionary. The write trees of
the client are such trees in which a value is always at a leaf (`LeafValues`, the comment of
`FCompoundWrite.applySubtreeWrite`).

The dictionary is sorted by `stringComparator`, which takes canonically equivalent strings for the same key, where paths
are compared unit by unit. `κ` is a set of keys of which no two are equivalent, in the order of the comparator.

- `child_setTree_self`, `child_setTree_of_ne`, `LeafValues.setTree`, `LeafValues.setValue`: what the updates do;
- `LeafValues.ext`: such a tree is its value and its children by key;
- `mem_forEach`, `forEach_apart`: the enumeration gives the value of each path once, and no path extends another.
-/

namespace ChatApp

open Lib (Assoc.insertKey Assoc.removeKey Assoc.Sorted)
open Lib.Tree (Apart)

/-- `FImmutableTree`. -/
inductive ImmutableTree (κ α : Type) : Type
  | mk (value : Option α) (children : List (κ × ImmutableTree κ α))

namespace ImmutableTree

variable {κ α : Type}

def value : ImmutableTree κ α → Option α
  | mk v _ => v

def children : ImmutableTree κ α → List (κ × ImmutableTree κ α)
  | mk _ cs => cs

def empty : ImmutableTree κ α := mk none []

def isEmpty (t : ImmutableTree κ α) : Bool := t.value.isNone && t.children.isEmpty

/-- `initWithValue:`. -/
def ofValue (v : α) : ImmutableTree κ α := mk (some v) []

mutual

/-- What `forEach:` calls its block with: the values below the children in the order of their keys, then the own one. -/
def forEach : ImmutableTree κ α → List (List κ × α)
  | mk v cs => forEachAll cs ++ (v.map fun x => ([], x)).toList

def forEachAll : List (κ × ImmutableTree κ α) → List (List κ × α)
  | [] => []
  | c :: cs => forEachBelow c ++ forEachAll cs

def forEachBelow : κ × ImmutableTree κ α → List (List κ × α)
  | (k, t) => t.forEach.map fun e => (k :: e.1, e.2)

end

@[simp] theorem value_mk (v : Option α) (cs : List (κ × ImmutableTree κ α)) : (mk v cs).value = v := rfl

@[simp] theorem children_mk (v : Option α) (cs : List (κ × ImmutableTree κ α)) : (mk v cs).children = cs := rfl

@[simp] theorem isEmpty_empty : (empty : ImmutableTree κ α).isEmpty = true := rfl

@[simp] theorem isEmpty_ofValue (v : α) : (ofValue v : ImmutableTree κ α).isEmpty = false := rfl

theorem isEmpty_iff {t : ImmutableTree κ α} : t.isEmpty = true ↔ t = empty := by
  obtain ⟨v, cs⟩ := t
  cases v <;> cases cs <;> simp [isEmpty, empty]

theorem isEmpty_eq_false {t : ImmutableTree κ α} : t.isEmpty = false ↔ t ≠ empty := by
  rw [← not_iff_not, Bool.not_eq_false, isEmpty_iff, not_not]

theorem mem_forEachAll {e : List κ × α} {cs : List (κ × ImmutableTree κ α)} :
    e ∈ forEachAll cs ↔ ∃ c ∈ cs, ∃ d ∈ c.2.forEach, e = (c.1 :: d.1, d.2) := by
  induction cs with
  | nil => simp [forEachAll]
  | cons c cs ih =>
    obtain ⟨k, t⟩ := c
    rw [forEachAll, List.mem_append, ih, forEachBelow]
    simp [eq_comm]

variable [LinearOrder κ]

/-- `[self.children get:front]`, the empty tree where there is none. -/
def child (t : ImmutableTree κ α) (k : κ) : ImmutableTree κ α := (t.children.lookup k).getD empty

def findRootMostValueAndPath : ImmutableTree κ α → List κ → Option (List κ × α)
  | mk (some v) _, _ => some ([], v)
  | mk none _, [] => none
  | mk none cs, front :: path =>
    match cs.lookup front with
    | some child => (child.findRootMostValueAndPath path).map fun e => (front :: e.1, e.2)
    | none => none

def subtreeAtPath : ImmutableTree κ α → List κ → ImmutableTree κ α
  | t, [] => t
  | t, front :: path =>
    match t.children.lookup front with
    | some child => child.subtreeAtPath path
    | none => empty

def valueAtPath : ImmutableTree κ α → List κ → Option α
  | t, [] => t.value
  | t, front :: path =>
    match t.children.lookup front with
    | some child => child.valueAtPath path
    | none => none

/-- The value changes, the children stay. -/
def setValue (newValue : α) : ImmutableTree κ α → List κ → ImmutableTree κ α
  | t, [] => mk (some newValue) t.children
  | t, front :: path =>
    mk t.value (Assoc.insertKey front (setValue newValue (t.child front) path) t.children)

/-- The subtree is replaced; a child that is left empty is removed. -/
def setTree (newTree : ImmutableTree κ α) : ImmutableTree κ α → List κ → ImmutableTree κ α
  | _, [] => newTree
  | t, front :: path =>
    if (setTree newTree (t.child front) path).isEmpty then mk t.value (Assoc.removeKey front t.children)
    else mk t.value (Assoc.insertKey front (setTree newTree (t.child front) path) t.children)

/-! ## One level -/

@[simp] theorem child_empty (k : κ) : (empty : ImmutableTree κ α).child k = empty := rfl

@[simp] theorem child_ofValue (v : α) (k : κ) : (ofValue v : ImmutableTree κ α).child k = empty := rfl

theorem valueAtPath_cons (t : ImmutableTree κ α) (k : κ) (p : List κ) :
    t.valueAtPath (k :: p) = (t.child k).valueAtPath p := by
  rw [valueAtPath, child]
  cases t.children.lookup k with
  | none => cases p <;> rfl
  | some c => rfl

theorem subtreeAtPath_empty (p : List κ) : (empty : ImmutableTree κ α).subtreeAtPath p = empty := by
  cases p <;> rfl

theorem subtreeAtPath_cons (t : ImmutableTree κ α) (k : κ) (p : List κ) :
    t.subtreeAtPath (k :: p) = (t.child k).subtreeAtPath p := by
  rw [subtreeAtPath, child]
  cases t.children.lookup k with
  | none => exact (subtreeAtPath_empty p).symm
  | some c => rfl

theorem findRootMostValueAndPath_of_value {t : ImmutableTree κ α} {v : α} (h : t.value = some v) (p : List κ) :
    t.findRootMostValueAndPath p = some ([], v) := by
  obtain ⟨_, cs⟩ := t
  cases h
  cases p <;> rfl

theorem findRootMostValueAndPath_nil {t : ImmutableTree κ α} (h : t.value = none) :
    t.findRootMostValueAndPath [] = none := by
  obtain ⟨_, cs⟩ := t
  cases h
  rfl

theorem findRootMostValueAndPath_empty (p : List κ) :
    (empty : ImmutableTree κ α).findRootMostValueAndPath p = none := by
  cases p <;> rfl

theorem findRootMostValueAndPath_cons {t : ImmutableTree κ α} (h : t.value = none) (k : κ) (p : List κ) :
    t.findRootMostValueAndPath (k :: p) =
      ((t.child k).findRootMostValueAndPath p).map fun e => (k :: e.1, e.2) := by
  obtain ⟨_, cs⟩ := t
  cases h
  rw [findRootMostValueAndPath, child]
  cases hc : cs.lookup k with
  | none => simp [hc, findRootMostValueAndPath_empty]
  | some c => simp [hc]

/-- The child that `setTree` and `setValue` put back. -/
theorem child_insertKey_self (v : Option α) (k : κ) (c : ImmutableTree κ α) (cs : List (κ × ImmutableTree κ α)) :
    (mk v (Assoc.insertKey k c cs)).child k = c := by
  simp [child, Lib.Assoc.lookup_insertKey_self]

theorem child_insertKey_of_ne {j k : κ} (h : j ≠ k) (v : Option α) (c : ImmutableTree κ α)
    (cs : List (κ × ImmutableTree κ α)) : (mk v (Assoc.insertKey k c cs)).child j = (mk v cs).child j := by
  simp [child, Lib.Assoc.lookup_insertKey_of_ne h]

@[simp] theorem value_setTree_cons (n t : ImmutableTree κ α) (k : κ) (p : List κ) :
    (setTree n t (k :: p)).value = t.value := by
  rw [setTree]
  split <;> rfl

theorem child_setTree_self (n t : ImmutableTree κ α) (k : κ) (p : List κ) :
    (setTree n t (k :: p)).child k = setTree n (t.child k) p := by
  rw [setTree]
  split
  · rename_i h
    rw [isEmpty_iff.1 h]
    simp [child, Lib.Assoc.lookup_removeKey_self]
  · exact child_insertKey_self _ _ _ _

theorem child_setTree_of_ne {j k : κ} (h : j ≠ k) (n t : ImmutableTree κ α) (p : List κ) :
    (setTree n t (k :: p)).child j = t.child j := by
  rw [setTree]
  split
  · simp [child, Lib.Assoc.lookup_removeKey_of_ne h]
  · exact child_insertKey_of_ne h _ _ _

theorem setTree_empty_empty (p : List κ) : setTree empty (empty : ImmutableTree κ α) p = empty := by
  induction p with
  | nil => rfl
  | cons k p ih =>
    rw [setTree, child_empty, ih]
    rfl

theorem setValue_ne_empty (v : α) (t : ImmutableTree κ α) (p : List κ) : setValue v t p ≠ empty := by
  intro h
  cases p with
  | nil => simp [setValue, empty] at h
  | cons k p =>
    have hk := congrArg (fun u => u.children.lookup k) h
    simp [setValue, empty, Lib.Assoc.lookup_insertKey_self] at hk

/-! ## Trees whose values are at leaves -/

/-- A value has no children; the children are sorted and none is empty. -/
inductive LeafValues : ImmutableTree κ α → Prop
  | value (v : α) : LeafValues (mk (some v) [])
  | node {cs : List (κ × ImmutableTree κ α)} (hs : Assoc.Sorted cs) (hne : ∀ c ∈ cs, c.2 ≠ .empty)
      (hcs : ∀ c ∈ cs, LeafValues c.2) : LeafValues (mk none cs)

theorem LeafValues.empty : LeafValues (empty : ImmutableTree κ α) :=
  .node Lib.Assoc.sorted_nil (by simp) (by simp)

theorem LeafValues.sorted {t : ImmutableTree κ α} (h : LeafValues t) : Assoc.Sorted t.children := by
  cases h with
  | value v => exact Lib.Assoc.sorted_nil
  | node hs hne hcs => exact hs

theorem LeafValues.child {t : ImmutableTree κ α} (h : LeafValues t) (k : κ) : LeafValues (t.child k) := by
  rw [ImmutableTree.child]
  cases hc : t.children.lookup k with
  | none => exact .empty
  | some c =>
    cases h with
    | value v => cases hc
    | node hs hne hcs => exact hcs _ (Lib.Assoc.mem_of_lookup hc)

theorem LeafValues.subtreeAtPath {t : ImmutableTree κ α} (h : LeafValues t) (p : List κ) :
    LeafValues (t.subtreeAtPath p) := by
  induction p generalizing t with
  | nil => exact h
  | cons k p ih =>
    rw [subtreeAtPath_cons]
    exact ih (h.child k)

/-- A value and its children do not go together. -/
theorem LeafValues.eq_ofValue {t : ImmutableTree κ α} (h : LeafValues t) {v : α} (hv : t.value = some v) :
    t = ofValue v := by
  cases h with
  | value w => cases hv; rfl
  | node hs hne hcs => cases hv

theorem LeafValues.lookup_eq {t : ImmutableTree κ α} (h : LeafValues t) (k : κ) :
    t.children.lookup k = if (t.child k).isEmpty then none else some (t.child k) := by
  rw [ImmutableTree.child]
  cases hc : t.children.lookup k with
  | none => rfl
  | some c =>
    cases h with
    | value v => cases hc
    | node hs hne hcs =>
      have : c.isEmpty = false := isEmpty_eq_false.2 (hne _ (Lib.Assoc.mem_of_lookup hc))
      simp [this]

/-- Such a tree is its value and its children by key. -/
theorem LeafValues.ext {t u : ImmutableTree κ α} (ht : LeafValues t) (hu : LeafValues u) (hv : t.value = u.value)
    (hc : ∀ k, t.child k = u.child k) : t = u := by
  have hcs : t.children = u.children := by
    apply ht.sorted.ext hu.sorted
    intro k
    rw [ht.lookup_eq, hu.lookup_eq, hc]
  obtain ⟨v, cs⟩ := t
  obtain ⟨w, ds⟩ := u
  cases hv
  cases hcs
  rfl

/-- A tree that is not empty has a value. -/
theorem LeafValues.exists_value {t : ImmutableTree κ α} (h : LeafValues t) (hne : t ≠ .empty) :
    ∃ p, t.valueAtPath p ≠ none := by
  induction h with
  | value v => exact ⟨[], by simp [valueAtPath]⟩
  | @node cs hs hcne hcs ih =>
    cases cs with
    | nil => exact absurd rfl hne
    | cons c cs =>
      obtain ⟨p, hp⟩ := ih c List.mem_cons_self (hcne c List.mem_cons_self)
      refine ⟨c.1 :: p, ?_⟩
      rw [valueAtPath, children_mk, hs.lookup_of_mem (x := c.2) List.mem_cons_self]
      exact hp

theorem LeafValues.eq_empty {t : ImmutableTree κ α} (h : LeafValues t) (hp : ∀ p, t.valueAtPath p = none) :
    t = .empty := by
  by_contra hne
  obtain ⟨p, hv⟩ := h.exists_value hne
  exact hv (hp p)

theorem LeafValues.insertKey {t c : ImmutableTree κ α} (h : LeafValues t) (hv : t.value = none) (hc : LeafValues c)
    (hne : c ≠ .empty) (k : κ) : LeafValues (mk none (Assoc.insertKey k c t.children)) := by
  cases h with
  | value v => cases hv
  | node hs hcne hcs =>
    refine .node (hs.insertKey k c) (fun d hd => ?_) (fun d hd => ?_)
    · rcases Lib.Assoc.mem_insertKey hd with rfl | hd
      · exact hne
      · exact hcne d hd
    · rcases Lib.Assoc.mem_insertKey hd with rfl | hd
      · exact hc
      · exact hcs d hd

theorem LeafValues.removeKey {t : ImmutableTree κ α} (h : LeafValues t) (k : κ) :
    LeafValues (mk t.value (Assoc.removeKey k t.children)) := by
  cases h with
  | value v => exact .value v
  | node hs hcne hcs =>
    refine .node (hs.removeKey k) (fun d hd => ?_) (fun d hd => ?_)
    · exact hcne d (Lib.Assoc.mem_removeKey.1 hd).1
    · exact hcs d (Lib.Assoc.mem_removeKey.1 hd).1

/-- A subtree is put below a tree that has no value on the way. -/
theorem LeafValues.setTree {n t : ImmutableTree κ α} (hn : LeafValues n) (ht : LeafValues t) {p : List κ}
    (h : n = .empty ∨ t.findRootMostValueAndPath p = none) : LeafValues (setTree n t p) := by
  induction p generalizing t with
  | nil => exact hn
  | cons k p ih =>
    rw [ImmutableTree.setTree]
    cases hv : t.value with
    | some v =>
      -- nothing but the empty tree goes below a value, and it changes nothing
      rcases h with rfl | h
      · rw [ht.eq_ofValue hv, child_ofValue, setTree_empty_empty]
        exact .value v
      · rw [findRootMostValueAndPath_of_value hv] at h
        cases h
    | none =>
      have hchild : n = .empty ∨ (t.child k).findRootMostValueAndPath p = none := by
        refine h.imp_right fun h => ?_
        rw [findRootMostValueAndPath_cons hv] at h
        exact Option.map_eq_none_iff.1 h
      split
      · exact hv ▸ ht.removeKey k
      · rename_i hne
        exact ht.insertKey hv (ih (ht.child k) hchild) (fun he => hne (by rw [he]; rfl)) k

/-- The value found on the way to a path is replaced. -/
theorem LeafValues.setValue {t : ImmutableTree κ α} (ht : LeafValues t) {p r : List κ} {v : α}
    (h : t.findRootMostValueAndPath p = some (r, v)) (w : α) : LeafValues (setValue w t r) := by
  induction r generalizing t p with
  | nil =>
    cases hv : t.value with
    | some u =>
      rw [ht.eq_ofValue hv]
      exact .value w
    | none =>
      cases p with
      | nil => simp [findRootMostValueAndPath_nil hv] at h
      | cons k p => simp [findRootMostValueAndPath_cons hv] at h
  | cons k r ih =>
    cases hv : t.value with
    | some u => simp [findRootMostValueAndPath_of_value hv] at h
    | none =>
      cases p with
      | nil => simp [findRootMostValueAndPath_nil hv] at h
      | cons j p =>
        rw [findRootMostValueAndPath_cons hv, Option.map_eq_some_iff] at h
        obtain ⟨⟨r', v'⟩, he, heq⟩ := h
        cases heq
        rw [ImmutableTree.setValue, hv]
        exact ht.insertKey hv (ih (ht.child k) he) (setValue_ne_empty _ _ _) k

/-! ## The enumeration -/

/-- **The enumeration gives the value of each path.** -/
theorem LeafValues.mem_forEach {t : ImmutableTree κ α} (h : LeafValues t) {p : List κ} {v : α} :
    (p, v) ∈ t.forEach ↔ t.valueAtPath p = some v := by
  induction p generalizing t with
  | nil =>
    obtain ⟨w, cs⟩ := t
    rw [forEach, List.mem_append, mem_forEachAll, valueAtPath]
    simp
  | cons k p ih =>
    rw [valueAtPath_cons, ← ih (h.child k)]
    have hsort := h.sorted
    obtain ⟨w, cs⟩ := t
    rw [forEach, List.mem_append, mem_forEachAll]
    rw [children_mk] at hsort
    constructor
    · rintro (⟨⟨j, c⟩, hc, ⟨q, x⟩, hx, heq⟩ | hw)
      · cases heq
        rw [ImmutableTree.child, children_mk, hsort.lookup_of_mem hc]
        exact hx
      · simp at hw
    · intro hx
      left
      rw [ImmutableTree.child, children_mk] at hx
      cases hc : cs.lookup k with
      | none => simp [hc, ImmutableTree.empty, forEach, forEachAll] at hx
      | some c =>
        rw [hc] at hx
        exact ⟨(k, c), Lib.Assoc.mem_of_lookup hc, (p, v), hx, rfl⟩

/-- No path of the enumeration extends another. -/
theorem LeafValues.forEach_apart {t : ImmutableTree κ α} (h : LeafValues t) :
    t.forEach.Pairwise fun d e => Apart d.1 e.1 := by
  induction h with
  | value v => simp [forEach, forEachAll]
  | @node cs hs hne hcs ih =>
    rw [forEach, Option.map_none, Option.toList_none, List.append_nil]
    clear hne hcs
    induction cs with
    | nil => exact List.Pairwise.nil
    | cons c cs ihcs =>
      obtain ⟨hlt, hs'⟩ := Lib.Assoc.sorted_cons.1 hs
      obtain ⟨k, t⟩ := c
      rw [forEachAll, forEachBelow, List.pairwise_append]
      refine ⟨?_, ihcs hs' fun c hc => ih c (List.mem_cons_of_mem _ hc), ?_⟩
      · rw [List.pairwise_map]
        exact (ih (k, t) List.mem_cons_self).imp fun hde => Lib.Tree.apart_cons.2 hde
      · intro d hd e he
        obtain ⟨d', -, rfl⟩ := List.mem_map.1 hd
        obtain ⟨c, hc, e', -, rfl⟩ := mem_forEachAll.1 he
        exact Lib.Tree.apart_cons_of_ne (hlt c hc).ne _ _

end ImmutableTree

end ChatApp
