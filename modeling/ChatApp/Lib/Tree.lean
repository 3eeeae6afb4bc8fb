import Mathlib.Data.List.Infix

/-!
# Trees of dictionaries

The data of a hierarchical store: a tree is empty, a leaf, or a dictionary of subtrees. `get` reads the subtree at a
path and `set` replaces it; an empty subtree is never kept as a child.

- one level: `child_setChild_self`, `child_setChild_of_ne`;
- paths: `get_set_self` and the frame rule `get_set_of_not_prefix` (a write changes nothing at a path that is neither
  above nor below it);
- several writes at once below one path (`update`): `get_update_of_not_prefix`, `get_update_self`.
-/

namespace Lib

/-- A tree with keys in `κ` and leaves in `ℓ`. -/
inductive Tree (κ ℓ : Type) : Type
  | empty : Tree κ ℓ
  | leaf (l : ℓ) : Tree κ ℓ
  | node (cs : List (κ × Tree κ ℓ)) : Tree κ ℓ

namespace Tree

variable {κ ℓ : Type}

def children : Tree κ ℓ → List (κ × Tree κ ℓ)
  | node cs => cs
  | _ => []

def isEmpty : Tree κ ℓ → Bool
  | empty => true
  | _ => false

/-- A dictionary without children is the empty tree. -/
def ofChildren : List (κ × Tree κ ℓ) → Tree κ ℓ
  | [] => empty
  | c :: cs => node (c :: cs)

@[simp] theorem children_ofChildren (cs : List (κ × Tree κ ℓ)) : (ofChildren cs).children = cs := by
  cases cs <;> rfl

theorem eq_empty_of_isEmpty {t : Tree κ ℓ} (h : t.isEmpty = true) : t = empty := by
  cases t <;> simp_all [isEmpty]

variable [DecidableEq κ]

/-- The child at `k`, empty when there is none. -/
def child (t : Tree κ ℓ) (k : κ) : Tree κ ℓ := (t.children.lookup k).getD empty

/-- The children other than `k`. -/
def others (t : Tree κ ℓ) (k : κ) : List (κ × Tree κ ℓ) := t.children.filter fun c => c.1 ≠ k

/-- Replace the child at `k`. Removing a child of a leaf leaves the leaf; giving it one makes it a dictionary. -/
def setChild (t : Tree κ ℓ) (k : κ) (x : Tree κ ℓ) : Tree κ ℓ :=
  if x.isEmpty then
    match t with
    | leaf l => leaf l
    | t => ofChildren (t.others k)
  else node ((k, x) :: t.others k)

/-- The subtree at a path. -/
def get : Tree κ ℓ → List κ → Tree κ ℓ
  | t, [] => t
  | t, k :: ks => (t.child k).get ks

/-- Replace the subtree at a path. -/
def set : Tree κ ℓ → List κ → Tree κ ℓ → Tree κ ℓ
  | _, [], x => x
  | t, k :: ks, x => t.setChild k ((t.child k).set ks x)

/-- Several writes below one path. -/
def update (t : Tree κ ℓ) (p : List κ) (ws : List (List κ × Tree κ ℓ)) : Tree κ ℓ :=
  t.set p (ws.foldl (fun n w => n.set w.1 w.2) (t.get p))

/-! ## One level -/

theorem lookup_filter_ne (k : κ) (cs : List (κ × Tree κ ℓ)) : (cs.filter fun c => c.1 ≠ k).lookup k = none := by
  rw [List.lookup_eq_none_iff]
  intro c hc
  have hk : c.1 ≠ k := by simpa using (List.mem_filter.1 hc).2
  simpa using hk.symm

theorem lookup_filter_of_ne {j k : κ} (hj : j ≠ k) (cs : List (κ × Tree κ ℓ)) :
    (cs.filter fun c => c.1 ≠ k).lookup j = cs.lookup j := by
  induction cs with
  | nil => rfl
  | cons c cs ih =>
    obtain ⟨i, x⟩ := c
    by_cases hi : i = k
    · have hji : (j == i) = false := by simp [hi, hj]
      rw [List.filter_cons_of_neg (by simp [hi]), ih, List.lookup_cons, hji]
    · rw [List.filter_cons_of_pos (by simp [hi]), List.lookup_cons, List.lookup_cons, ih]

theorem get_cons (t : Tree κ ℓ) (k : κ) (ks : List κ) : t.get (k :: ks) = (t.child k).get ks := rfl

theorem child_setChild_self (t : Tree κ ℓ) (k : κ) (x : Tree κ ℓ) : (t.setChild k x).child k = x := by
  unfold setChild
  split
  · rename_i hx
    rw [eq_empty_of_isEmpty hx]
    cases t with
    | leaf l => rfl
    | empty => rfl
    | node cs => simp only [child, children_ofChildren, others, lookup_filter_ne, Option.getD_none]
  · simp [child, children]

theorem child_setChild_of_ne (t : Tree κ ℓ) {j k : κ} (x : Tree κ ℓ) (h : j ≠ k) :
    (t.setChild k x).child j = t.child j := by
  unfold setChild
  split
  · cases t with
    | leaf l => rfl
    | empty => rfl
    | node cs => simp only [child, children_ofChildren, others, lookup_filter_of_ne h]
  · have hj : (j == k) = false := by simp [h]
    simp only [child, children, List.lookup_cons, hj, others, lookup_filter_of_ne h]

@[simp] theorem setChild_empty (t : Tree κ ℓ) (k : κ) : t.setChild k empty = match t with
    | leaf l => leaf l
    | t => ofChildren (t.others k) := rfl

@[simp] theorem setChild_leaf (t : Tree κ ℓ) (k : κ) (l : ℓ) :
    t.setChild k (leaf l) = node ((k, leaf l) :: t.others k) := rfl

@[simp] theorem others_empty (k : κ) : (empty : Tree κ ℓ).others k = [] := rfl

/-- A write below a node that has no child of that key yet. -/
theorem others_node_of_notMem {cs : List (κ × Tree κ ℓ)} {k : κ} (h : k ∉ cs.map Prod.fst) :
    (node cs).others k = cs := by
  refine List.filter_eq_self.2 fun c hc => ?_
  have : c.1 ≠ k := fun he => h (he ▸ List.mem_map_of_mem hc)
  simpa using this

/-! ## Paths -/

@[simp] theorem set_singleton (t : Tree κ ℓ) (k : κ) (x : Tree κ ℓ) : t.set [k] x = t.setChild k x := rfl

theorem get_set_self (p : List κ) (t x : Tree κ ℓ) : (t.set p x).get p = x := by
  induction p generalizing t with
  | nil => rfl
  | cons k p ih =>
    rw [set, get_cons, child_setChild_self]
    exact ih _

/-- **Frame**: a write at `p` is not seen at a path that neither extends `p` nor is extended by it. -/
theorem get_set_of_not_prefix {p q : List κ} (t x : Tree κ ℓ) (hp : ¬p <+: q) (hq : ¬q <+: p) :
    (t.set p x).get q = t.get q := by
  induction p generalizing q t with
  | nil => exact absurd List.nil_prefix hp
  | cons k p ih =>
    cases q with
    | nil => exact absurd List.nil_prefix hq
    | cons j q =>
      rw [set, get_cons, get_cons]
      by_cases h : j = k
      · subst h
        rw [child_setChild_self]
        apply ih
        · exact fun h => hp (List.cons_prefix_cons.2 ⟨rfl, h⟩)
        · exact fun h => hq (List.cons_prefix_cons.2 ⟨rfl, h⟩)
      · rw [child_setChild_of_ne _ _ h]

/-! ## Several writes below one path -/

theorem get_update_of_not_prefix {p q : List κ} (t : Tree κ ℓ) (ws : List (List κ × Tree κ ℓ)) (hp : ¬p <+: q)
    (hq : ¬q <+: p) : (t.update p ws).get q = t.get q :=
  get_set_of_not_prefix t _ hp hq

/-- Below `p` the writes start from what was there. -/
theorem get_update_self (t : Tree κ ℓ) (p : List κ) (ws : List (List κ × Tree κ ℓ)) :
    (t.update p ws).get p = ws.foldl (fun n w => n.set w.1 w.2) (t.get p) :=
  get_set_self p t _

end Tree

end Lib
