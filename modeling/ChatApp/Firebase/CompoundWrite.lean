import ChatApp.Firebase.ImmutableTree

/-!
# Compound writes

`FCompoundWrite`: the writes a client has made and not yet seen confirmed, as one tree of values at paths. A write below
a value goes into the value, so that a value is always at a leaf of the tree. Priorities are left out: no key is
`.priority`, whose write the code applies after those of the children.

- `completeNode_addWriteTree_below`, `completeNode_addWriteTree_apart`, `completeNode_addWriteTree_above`: what a
  compound write knows after one more write;
- `removeWriteTree_addWriteTree_apart`, `removeWriteTree_addWriteTree_below`, `addWriteTree_removeWriteTree`: removing a
  write against adding others;
- `leafAt_applyToNode`: the leaves of a node under a compound write are those of the write on the way to them, and the
  node's own elsewhere;
- `applyToNode_addWrite`, `applyToNode_childCompoundWriteAtPath`: applying commutes with one more write and with
  reading below a path.
-/

namespace ChatApp

open Lib.Tree (Apart Same Clear Canonical)

variable {κ ℓ : Type}

/-- `FCompoundWrite`. -/
@[ext] structure CompoundWrite (κ ℓ : Type) [LinearOrder κ] where
  writeTree : ImmutableTree κ (Lib.Tree κ ℓ)
  /-- "A write there is always a leaf." -/
  leafValues : writeTree.LeafValues

namespace CompoundWrite

variable [LinearOrder κ]

/-! ## Write trees -/

section Trees

open ImmutableTree

/-- The write tree of `addWrite:atPath:`. -/
def addWriteTree (node : Lib.Tree κ ℓ) (t : ImmutableTree κ (Lib.Tree κ ℓ)) (path : List κ) :
    ImmutableTree κ (Lib.Tree κ ℓ) :=
  if path.isEmpty then ofValue node
  else
    match t.findRootMostValueAndPath path with
    | some (rootMost, value) => setValue (value.set (path.drop rootMost.length) node) t rootMost
    | none => setTree (ofValue node) t path

variable {t : ImmutableTree κ (Lib.Tree κ ℓ)}

theorem leafValues_addWriteTree (h : t.LeafValues) (n : Lib.Tree κ ℓ) (p : List κ) :
    (addWriteTree n t p).LeafValues := by
  unfold addWriteTree
  split
  · exact .value n
  · split
    · rename_i hr
      exact h.setValue hr _
    · rename_i hr
      exact LeafValues.setTree (.value n) h (Or.inr hr)

/-- A write at or below a value goes into the value. -/
theorem addWriteTree_of_value (h : t.LeafValues) {v : Lib.Tree κ ℓ} (hv : t.value = some v) (n : Lib.Tree κ ℓ)
    (p : List κ) : addWriteTree n t p = ofValue (v.set p n) := by
  cases p with
  | nil => rfl
  | cons k p =>
    rw [addWriteTree, findRootMostValueAndPath_of_value hv, h.eq_ofValue hv]
    rfl

theorem addWriteTree_nil (n : Lib.Tree κ ℓ) (t : ImmutableTree κ (Lib.Tree κ ℓ)) :
    addWriteTree n t [] = ofValue n := rfl

theorem value_addWriteTree_cons (hv : t.value = none) (n : Lib.Tree κ ℓ) (k : κ) (p : List κ) :
    (addWriteTree n t (k :: p)).value = none := by
  rw [addWriteTree, findRootMostValueAndPath_cons hv]
  cases (t.child k).findRootMostValueAndPath p with
  | none => simpa using hv
  | some e => exact hv

theorem child_addWriteTree_self (h : t.LeafValues) (hv : t.value = none) (n : Lib.Tree κ ℓ) (k : κ) (p : List κ) :
    (addWriteTree n t (k :: p)).child k = addWriteTree n (t.child k) p := by
  rw [addWriteTree, findRootMostValueAndPath_cons hv]
  cases hr : (t.child k).findRootMostValueAndPath p with
  | none =>
    simp only [List.isEmpty_cons, Bool.false_eq_true, if_false, Option.map_none, child_setTree_self]
    cases p with
    | nil => rfl
    | cons j p => rw [addWriteTree, hr]; rfl
  | some e =>
    simp only [List.isEmpty_cons, Bool.false_eq_true, if_false, Option.map_some, setValue, child_insertKey_self,
      List.length_cons, List.drop_succ_cons]
    cases p with
    | nil =>
      -- the child is a value, and it is replaced
      cases hc : (t.child k).value with
      | none => simp [findRootMostValueAndPath_nil hc] at hr
      | some v =>
        rw [findRootMostValueAndPath_of_value hc] at hr
        cases hr
        rw [(h.child k).eq_ofValue hc]
        rfl
    | cons j p => rw [addWriteTree, hr]; rfl

theorem child_addWriteTree_of_ne (hv : t.value = none) {j k : κ} (hj : j ≠ k) (n : Lib.Tree κ ℓ) (p : List κ) :
    (addWriteTree n t (k :: p)).child j = t.child j := by
  rw [addWriteTree, findRootMostValueAndPath_cons hv]
  cases (t.child k).findRootMostValueAndPath p with
  | none => exact child_setTree_of_ne hj _ _ _
  | some e => exact child_insertKey_of_ne hj _ _ _

/-- The write tree of `removeWriteAtPath:`. -/
def removeWriteTree (t : ImmutableTree κ (Lib.Tree κ ℓ)) (path : List κ) : ImmutableTree κ (Lib.Tree κ ℓ) :=
  if path.isEmpty then empty else setTree empty t path

theorem removeWriteTree_eq (t : ImmutableTree κ (Lib.Tree κ ℓ)) (p : List κ) :
    removeWriteTree t p = setTree empty t p := by
  cases p <;> rfl

theorem leafValues_removeWriteTree (h : t.LeafValues) (p : List κ) : (removeWriteTree t p).LeafValues := by
  rw [removeWriteTree_eq]
  exact LeafValues.empty.setTree h (Or.inl rfl)

/-- Nothing is removed below a value. -/
theorem removeWriteTree_of_value (h : t.LeafValues) {v : Lib.Tree κ ℓ} (hv : t.value = some v) (k : κ) (p : List κ) :
    removeWriteTree t (k :: p) = t := by
  rw [removeWriteTree_eq, h.eq_ofValue hv, setTree, child_ofValue, setTree_empty_empty]
  rfl

/-- The node that the writes fix at a path. -/
def completeNode (t : ImmutableTree κ (Lib.Tree κ ℓ)) (path : List κ) : Option (Lib.Tree κ ℓ) :=
  (t.findRootMostValueAndPath path).map fun rootMost => rootMost.2.get (path.drop rootMost.1.length)

theorem completeNode_of_value {v : Lib.Tree κ ℓ} (hv : t.value = some v) (p : List κ) :
    completeNode t p = some (v.get p) := by
  rw [completeNode, findRootMostValueAndPath_of_value hv]
  rfl

theorem completeNode_nil (t : ImmutableTree κ (Lib.Tree κ ℓ)) : completeNode t [] = t.value := by
  cases hv : t.value with
  | none =>
    rw [completeNode, findRootMostValueAndPath_nil hv]
    rfl
  | some v => exact completeNode_of_value hv []

theorem completeNode_cons (hv : t.value = none) (k : κ) (p : List κ) :
    completeNode t (k :: p) = completeNode (t.child k) p := by
  rw [completeNode, findRootMostValueAndPath_cons hv, completeNode, Option.map_map]
  rfl

theorem completeNode_empty (p : List κ) : completeNode (empty : ImmutableTree κ (Lib.Tree κ ℓ)) p = none := by
  rw [completeNode, findRootMostValueAndPath_empty]
  rfl

/-! ### One more write -/

/-- At and below the path of a write stands what was written. -/
theorem completeNode_addWriteTree_below (h : t.LeafValues) (n : Lib.Tree κ ℓ) (p q : List κ) :
    completeNode (addWriteTree n t p) (p ++ q) = some (n.get q) := by
  induction p generalizing t with
  | nil => exact completeNode_of_value rfl q
  | cons k p ih =>
    cases hv : t.value with
    | some v =>
      rw [addWriteTree_of_value h hv, completeNode_of_value rfl, Lib.Tree.get_set_append]
    | none =>
      rw [List.cons_append, completeNode_cons (value_addWriteTree_cons hv n k p), child_addWriteTree_self h hv]
      exact ih (h.child k)

/-- Apart from the path of a write nothing changes. -/
theorem completeNode_addWriteTree_apart (h : t.LeafValues) (n : Lib.Tree κ ℓ) {p q : List κ} (hpq : Apart p q) :
    completeNode (addWriteTree n t p) q = completeNode t q := by
  induction p generalizing t q with
  | nil => exact absurd List.nil_prefix hpq.1
  | cons k p ih =>
    cases q with
    | nil => exact absurd List.nil_prefix hpq.2
    | cons j q =>
      cases hv : t.value with
      | some v =>
        rw [addWriteTree_of_value h hv, completeNode_of_value rfl, completeNode_of_value hv,
          Lib.Tree.get_set_of_not_prefix _ _ hpq.1 hpq.2]
      | none =>
        rw [completeNode_cons (value_addWriteTree_cons hv n k p), completeNode_cons hv]
        by_cases hj : j = k
        · subst hj
          rw [child_addWriteTree_self h hv]
          exact ih (h.child j) (Lib.Tree.apart_cons.1 hpq)
        · rw [child_addWriteTree_of_ne hv hj]

/-- Above the path of a write, a node that was fixed has the write in it. -/
theorem completeNode_addWriteTree_above (h : t.LeafValues) (n : Lib.Tree κ ℓ) (p : List κ) {q : List κ} (hq : q ≠ []) :
    completeNode (addWriteTree n t (p ++ q)) p = (completeNode t p).map fun v => v.set q n := by
  induction p generalizing t with
  | nil =>
    obtain ⟨k, q, rfl⟩ := List.exists_cons_of_ne_nil hq
    rw [List.nil_append, completeNode_nil, completeNode_nil]
    cases hv : t.value with
    | some v =>
      rw [addWriteTree_of_value h hv]
      rfl
    | none => exact value_addWriteTree_cons hv n k q
  | cons k p ih =>
    cases hv : t.value with
    | some v =>
      rw [addWriteTree_of_value h hv, completeNode_of_value rfl, completeNode_of_value hv, Option.map_some,
        Lib.Tree.get_set_of_append]
    | none =>
      rw [List.cons_append, completeNode_cons (value_addWriteTree_cons hv n k _), child_addWriteTree_self h hv,
        completeNode_cons hv]
      exact ih (h.child k)

/-! ### Removing writes -/

/-- No value strictly above the path. -/
def Uncovered (t : ImmutableTree κ (Lib.Tree κ ℓ)) (p : List κ) : Prop :=
  ∀ q, q <+: p → q ≠ p → t.valueAtPath q = none

theorem uncovered_cons {k : κ} {p : List κ} : Uncovered t (k :: p) ↔ t.value = none ∧ Uncovered (t.child k) p := by
  constructor
  · intro h
    refine ⟨h [] List.nil_prefix (by simp), fun q hq hne => ?_⟩
    rw [← valueAtPath_cons]
    exact h (k :: q) (List.cons_prefix_cons.2 ⟨rfl, hq⟩) (by simpa using hne)
  · rintro ⟨hv, h⟩ q hq hne
    cases q with
    | nil => exact hv
    | cons j q =>
      obtain ⟨rfl, hqp⟩ := List.cons_prefix_cons.1 hq
      rw [valueAtPath_cons]
      exact h q hqp (by simpa using hne)

/-- A removal commutes with a write apart from it. -/
theorem removeWriteTree_addWriteTree_apart (h : t.LeafValues) (n : Lib.Tree κ ℓ) {p r : List κ} (hpr : Apart p r) :
    removeWriteTree (addWriteTree n t r) p = addWriteTree n (removeWriteTree t p) r := by
  induction p generalizing t r with
  | nil => exact absurd List.nil_prefix hpr.1
  | cons k p ih =>
    cases r with
    | nil => exact absurd List.nil_prefix hpr.2
    | cons j r =>
      cases hv : t.value with
      | some v =>
        rw [removeWriteTree_of_value h hv, addWriteTree_of_value h hv]
        exact removeWriteTree_of_value (.value _) rfl k p
      | none =>
        have hrem := leafValues_removeWriteTree h (k :: p)
        have hremv : (removeWriteTree t (k :: p)).value = none := by rw [removeWriteTree_eq]; simpa using hv
        apply (leafValues_removeWriteTree (leafValues_addWriteTree h n (j :: r)) (k :: p)).ext
          (leafValues_addWriteTree hrem n (j :: r))
        · rw [value_addWriteTree_cons hremv, removeWriteTree_eq, value_setTree_cons, value_addWriteTree_cons hv]
        · intro i
          by_cases hj : i = j
          · subst hj
            by_cases hk : i = k
            · subst hk
              have ih' := ih (h.child i) (Lib.Tree.apart_cons.1 hpr)
              simp only [removeWriteTree_eq] at ih' hrem hremv ⊢
              rw [child_addWriteTree_self hrem hremv, child_setTree_self, child_setTree_self,
                child_addWriteTree_self h hv, ih']
            · simp only [removeWriteTree_eq] at hrem hremv ⊢
              rw [child_addWriteTree_self hrem hremv, child_setTree_of_ne hk, child_setTree_of_ne hk,
                child_addWriteTree_self h hv]
          · rw [child_addWriteTree_of_ne hremv hj, removeWriteTree_eq, removeWriteTree_eq]
            by_cases hk : i = k
            · subst hk
              rw [child_setTree_self, child_setTree_self, child_addWriteTree_of_ne hv hj]
            · rw [child_setTree_of_ne hk, child_setTree_of_ne hk, child_addWriteTree_of_ne hv hj]

/-- Removing at a path takes a write at or below it back, unless the write went into a value above. -/
theorem removeWriteTree_addWriteTree_below (h : t.LeafValues) (n : Lib.Tree κ ℓ) {p : List κ} (hp : Uncovered t p)
    (q : List κ) : removeWriteTree (addWriteTree n t (p ++ q)) p = removeWriteTree t p := by
  induction p generalizing t with
  | nil => rfl
  | cons k p ih =>
    obtain ⟨hv, hp⟩ := uncovered_cons.1 hp
    have hadd := leafValues_addWriteTree h n (k :: (p ++ q))
    apply (leafValues_removeWriteTree hadd (k :: p)).ext (leafValues_removeWriteTree h (k :: p))
    · rw [removeWriteTree_eq, removeWriteTree_eq, value_setTree_cons, value_setTree_cons,
        value_addWriteTree_cons hv, hv]
    · intro i
      have ih' := ih (h.child k) hp
      simp only [removeWriteTree_eq] at ih' ⊢
      by_cases hk : i = k
      · subst hk
        rw [child_setTree_self, child_setTree_self, child_addWriteTree_self h hv, ih']
      · rw [child_setTree_of_ne hk, child_setTree_of_ne hk, child_addWriteTree_of_ne hv hk]

/-- A write covers what was removed below it. -/
theorem addWriteTree_removeWriteTree (h : t.LeafValues) (n : Lib.Tree κ ℓ) (r q : List κ) :
    addWriteTree n (removeWriteTree t (r ++ q)) r = addWriteTree n t r := by
  induction r generalizing t with
  | nil => rfl
  | cons k r ih =>
    cases hv : t.value with
    | some v => rw [List.cons_append, removeWriteTree_of_value h hv]
    | none =>
      have hrem := leafValues_removeWriteTree h (k :: (r ++ q))
      have hremv : (removeWriteTree t (k :: (r ++ q))).value = none := by rw [removeWriteTree_eq]; simpa using hv
      rw [List.cons_append]
      apply (leafValues_addWriteTree hrem n (k :: r)).ext (leafValues_addWriteTree h n (k :: r))
      · rw [value_addWriteTree_cons hremv, value_addWriteTree_cons hv]
      · intro i
        by_cases hk : i = k
        · subst hk
          have ih' := ih (h.child i)
          simp only [removeWriteTree_eq] at ih' hrem hremv ⊢
          rw [child_addWriteTree_self hrem hremv, child_setTree_self, child_addWriteTree_self h hv, ih']
        · rw [child_addWriteTree_of_ne hremv hk, removeWriteTree_eq, child_setTree_of_ne hk,
            child_addWriteTree_of_ne hv hk]

/-- Removing where there is nothing changes nothing. -/
theorem removeWriteTree_eq_self (h : t.LeafValues) {p : List κ} (hp : ∀ q, t.valueAtPath (p ++ q) = none) :
    removeWriteTree t p = t := by
  induction p generalizing t with
  | nil => exact (h.eq_empty hp).symm
  | cons k p ih =>
    have ih' := ih (h.child k) fun q => by rw [← valueAtPath_cons]; exact hp q
    apply (leafValues_removeWriteTree h (k :: p)).ext h
    · rw [removeWriteTree_eq, value_setTree_cons]
    · intro i
      rw [removeWriteTree_eq] at ih' ⊢
      by_cases hk : i = k
      · subst hk
        rw [child_setTree_self, ih']
      · rw [child_setTree_of_ne hk]

/-- The values of a tree after a write: old ones, and the new one unless it went into an old one. -/
theorem valueAtPath_addWriteTree (h : t.LeafValues) (n : Lib.Tree κ ℓ) (p q : List κ)
    (hq : (addWriteTree n t p).valueAtPath q ≠ none) :
    (q = p ∧ completeNode t p = none) ∨ t.valueAtPath q ≠ none := by
  induction p generalizing t q with
  | nil =>
    cases q with
    | nil =>
      rw [completeNode_nil, valueAtPath]
      exact (eq_or_ne t.value none).imp_left fun hv => ⟨rfl, hv⟩
    | cons j q => exact absurd rfl hq
  | cons k p ih =>
    cases hv : t.value with
    | some v =>
      right
      rw [addWriteTree_of_value h hv] at hq
      cases q with
      | nil => simp [valueAtPath, hv]
      | cons j q => exact absurd rfl hq
    | none =>
      cases q with
      | nil => exact absurd (value_addWriteTree_cons hv n k p) hq
      | cons j q =>
        rw [completeNode_cons hv]
        rw [valueAtPath_cons] at hq ⊢
        by_cases hj : j = k
        · subst hj
          rw [child_addWriteTree_self h hv] at hq
          rcases ih (h.child j) q hq with ⟨rfl, hn⟩ | hval
          · exact Or.inl ⟨rfl, hn⟩
          · exact Or.inr hval
        · rw [child_addWriteTree_of_ne hv hj] at hq
          exact Or.inr hq

/-! ### Where the nodes come from -/

theorem completeNode_of_valueAtPath (h : t.LeafValues) {p : List κ} {v : Lib.Tree κ ℓ} (hv : t.valueAtPath p = some v)
    (q : List κ) : completeNode t (p ++ q) = some (v.get q) := by
  induction p generalizing t with
  | nil => exact completeNode_of_value hv q
  | cons k p ih =>
    rw [valueAtPath_cons] at hv
    cases ht : t.value with
    | some w =>
      rw [h.eq_ofValue ht, child_ofValue] at hv
      cases p <;> cases hv
    | none =>
      rw [List.cons_append, completeNode_cons ht]
      exact ih (h.child k) hv

theorem exists_valueAtPath {q : List κ} {n : Lib.Tree κ ℓ} (hn : completeNode t q = some n) :
    ∃ p v r, t.valueAtPath p = some v ∧ q = p ++ r ∧ n = v.get r := by
  induction q generalizing t with
  | nil =>
    rw [completeNode_nil] at hn
    exact ⟨[], n, [], hn, rfl, rfl⟩
  | cons k q ih =>
    cases ht : t.value with
    | some w =>
      rw [completeNode_of_value ht] at hn
      cases hn
      exact ⟨[], w, k :: q, ht, rfl, rfl⟩
    | none =>
      rw [completeNode_cons ht] at hn
      obtain ⟨p, v, r, hv, rfl, rfl⟩ := ih hn
      exact ⟨k :: p, v, r, by rw [valueAtPath_cons]; exact hv, rfl, rfl⟩

/-! ### Applying -/

mutual

/-- `applySubtreeWrite:atPath:toNode:`, where no child is a `.priority`. -/
def applySubtreeWrite : ImmutableTree κ (Lib.Tree κ ℓ) → List κ → Lib.Tree κ ℓ → Lib.Tree κ ℓ
  | .mk (some value) _, relativePath, node => node.set relativePath value
  | .mk none children, relativePath, node => applyChildWrites children relativePath node

/-- The block of `applySubtreeWrite` over all children. -/
def applyChildWrites : List (κ × ImmutableTree κ (Lib.Tree κ ℓ)) → List κ → Lib.Tree κ ℓ → Lib.Tree κ ℓ
  | [], _, node => node
  | c :: cs, relativePath, node => applyChildWrites cs relativePath (applyChildWrite c relativePath node)

def applyChildWrite : κ × ImmutableTree κ (Lib.Tree κ ℓ) → List κ → Lib.Tree κ ℓ → Lib.Tree κ ℓ
  | (childKey, childTree), relativePath, node => applySubtreeWrite childTree (relativePath ++ [childKey]) node

end

/-- Applying a write tree is writing its values one after the other. -/
theorem applySubtreeWrite_eq_foldl (h : t.LeafValues) (p : List κ) (n : Lib.Tree κ ℓ) :
    applySubtreeWrite t p n = (t.forEach.map fun e => (p ++ e.1, e.2)).foldl (fun n w => n.set w.1 w.2) n := by
  induction h generalizing p n with
  | value v => simp [applySubtreeWrite, forEach, forEachAll]
  | @node cs hs hne hcs ih =>
    rw [applySubtreeWrite, forEach, Option.map_none, Option.toList_none, List.append_nil]
    clear hs hne hcs
    induction cs generalizing n with
    | nil => simp [applyChildWrites, forEachAll]
    | cons c cs ihcs =>
      obtain ⟨k, u⟩ := c
      rw [applyChildWrites, applyChildWrite, ih (k, u) List.mem_cons_self,
        ihcs (fun c hc => ih c (List.mem_cons_of_mem _ hc)), forEachAll, forEachBelow, List.map_append,
        List.foldl_append, List.map_map]
      simp [Function.comp_def]

/-- **The leaves under a write tree**: those of the value on the way, the node's own where there is none. -/
theorem leafAt_applySubtreeWrite (h : t.LeafValues) {n : Lib.Tree κ ℓ}
    (hc : ∀ p, t.valueAtPath p ≠ none → n.Clear p) (q : List κ) :
    (applySubtreeWrite t [] n).leafAt q = ((completeNode t q).map Lib.Tree.leaf?).getD (n.leafAt q) := by
  have happly := applySubtreeWrite_eq_foldl h [] n
  simp only [List.nil_append, List.map_id'] at happly
  have hclear : ∀ e ∈ t.forEach, n.Clear e.1 := fun e he => hc e.1 (by simp [h.mem_forEach.1 he])
  obtain ⟨hin, hout⟩ := Lib.Tree.leafAt_foldl_set h.forEach_apart hclear q
  rw [happly]
  cases hn : completeNode t q with
  | some x =>
    obtain ⟨p, v, r, hv, rfl, rfl⟩ := exists_valueAtPath hn
    rw [hin _ (h.mem_forEach.2 hv) (List.prefix_append _ _), List.drop_left]
    rfl
  | none =>
    rw [hout]
    · rfl
    · rintro ⟨p, v⟩ he ⟨r, rfl⟩
      rw [completeNode_of_valueAtPath h (h.mem_forEach.1 he)] at hn
      cases hn

end Trees

/-! ## The operations -/

def emptyWrite : CompoundWrite κ ℓ := ⟨.empty, .empty⟩

def addWrite (cw : CompoundWrite κ ℓ) (node : Lib.Tree κ ℓ) (path : List κ) : CompoundWrite κ ℓ :=
  ⟨addWriteTree node cw.writeTree path, leafValues_addWriteTree cw.leafValues node path⟩

/-- What `enumerateWrites:` goes through. -/
def writes (cw : CompoundWrite κ ℓ) : List (List κ × Lib.Tree κ ℓ) := cw.writeTree.forEach

def addCompoundWrite (cw compoundWrite : CompoundWrite κ ℓ) (path : List κ) : CompoundWrite κ ℓ :=
  compoundWrite.writes.foldl (fun newWrite e => newWrite.addWrite e.2 (path ++ e.1)) cw

/-- The write at the path and all deeper ones; a write at a higher location stays. -/
def removeWriteAtPath (cw : CompoundWrite κ ℓ) (path : List κ) : CompoundWrite κ ℓ :=
  ⟨removeWriteTree cw.writeTree path, leafValues_removeWriteTree cw.leafValues path⟩

def completeNodeAtPath (cw : CompoundWrite κ ℓ) (path : List κ) : Option (Lib.Tree κ ℓ) :=
  completeNode cw.writeTree path

def hasCompleteWriteAtPath (cw : CompoundWrite κ ℓ) (path : List κ) : Bool := (cw.completeNodeAtPath path).isSome

/-- `[[FImmutableTree alloc] initWithValue:node]` as a compound write. -/
def ofNode (node : Lib.Tree κ ℓ) : CompoundWrite κ ℓ := ⟨.ofValue node, .value node⟩

def childCompoundWriteAtPath (cw : CompoundWrite κ ℓ) (path : List κ) : CompoundWrite κ ℓ :=
  if path.isEmpty then cw
  else
    match cw.completeNodeAtPath path with
    | some shadowingNode => ofNode shadowingNode
    | none => ⟨cw.writeTree.subtreeAtPath path, cw.leafValues.subtreeAtPath path⟩

/-- The children that the writes fix: those of the value at the root, or the values one level below. -/
def completeChildren (cw : CompoundWrite κ ℓ) : List (κ × Lib.Tree κ ℓ) :=
  match cw.writeTree.value with
  | some node => node.children
  | none => cw.writeTree.children.filterMap fun c => c.2.value.map fun node => (c.1, node)

def rootWrite (cw : CompoundWrite κ ℓ) : Option (Lib.Tree κ ℓ) := cw.writeTree.value

def isEmpty (cw : CompoundWrite κ ℓ) : Bool := cw.writeTree.isEmpty

def applyToNode (cw : CompoundWrite κ ℓ) (node : Lib.Tree κ ℓ) : Lib.Tree κ ℓ := applySubtreeWrite cw.writeTree [] node

/-- No leaf of the node is strictly above a write. -/
def ClearFor (cw : CompoundWrite κ ℓ) (node : Lib.Tree κ ℓ) : Prop :=
  ∀ p, cw.writeTree.valueAtPath p ≠ none → node.Clear p

variable {cw : CompoundWrite κ ℓ} {t u : Lib.Tree κ ℓ}

theorem leafAt_applyToNode (h : cw.ClearFor t) (q : List κ) :
    (cw.applyToNode t).leafAt q = ((cw.completeNodeAtPath q).map Lib.Tree.leaf?).getD (t.leafAt q) :=
  leafAt_applySubtreeWrite cw.leafValues h q

theorem completeNodeAtPath_append {p : List κ} (q : List κ) {n : Lib.Tree κ ℓ}
    (h : cw.completeNodeAtPath p = some n) : cw.completeNodeAtPath (p ++ q) = some (n.get q) := by
  obtain ⟨w, v, r, hv, rfl, rfl⟩ := exists_valueAtPath h
  rw [List.append_assoc, completeNodeAtPath, completeNode_of_valueAtPath cw.leafValues hv, Lib.Tree.get_append]

theorem ClearFor.addWrite (h : cw.ClearFor t) {p : List κ} (hp : (cw.applyToNode t).Clear p) (n : Lib.Tree κ ℓ) :
    (cw.addWrite n p).ClearFor t := by
  intro q hq
  rcases valueAtPath_addWriteTree cw.leafValues n p q hq with ⟨rfl, hnone⟩ | hq
  · -- nothing is written at or above the path, so the leaves there are the node's own
    intro r hr hne
    have hleaf := hp r hr hne
    rw [leafAt_applyToNode h] at hleaf
    cases hc : cw.completeNodeAtPath r with
    | none => simpa [hc] using hleaf
    | some v =>
      obtain ⟨w, rfl⟩ := hr
      exact absurd (completeNodeAtPath_append w hc) (by rw [completeNodeAtPath, hnone]; simp)
  · exact h q hq

/-- **One more write** is a write on the node. -/
theorem applyToNode_addWrite (h : cw.ClearFor t) {p : List κ} (hap : (cw.applyToNode t).Clear p)
    (n : Lib.Tree κ ℓ) : Same ((cw.addWrite n p).applyToNode t) ((cw.applyToNode t).set p n) := by
  intro q
  rw [leafAt_applyToNode (h.addWrite hap n), Lib.Tree.leafAt_set hap]
  by_cases hpq : p <+: q
  · obtain ⟨r, rfl⟩ := hpq
    have hn : (cw.addWrite n p).completeNodeAtPath (p ++ r) = some (n.get r) :=
      completeNode_addWriteTree_below cw.leafValues n p r
    rw [hn, if_pos (List.prefix_append _ _), List.drop_left]
    rfl
  · rw [if_neg hpq]
    by_cases hqp : q <+: p
    · -- above the write there is no leaf, before and after
      obtain ⟨r, rfl⟩ := hqp
      have hr : r ≠ [] := fun he => hpq (by simp [he])
      have hnone := hap q (List.prefix_append _ _) (by simpa using hr)
      have hn : (cw.addWrite n (q ++ r)).completeNodeAtPath q = (cw.completeNodeAtPath q).map fun v => v.set r n :=
        completeNode_addWriteTree_above cw.leafValues n q hr
      rw [hnone, hn]
      rw [leafAt_applyToNode h] at hnone
      cases hc : cw.completeNodeAtPath q with
      | none => simpa [hc] using hnone
      | some v =>
        obtain ⟨k, r, rfl⟩ := List.exists_cons_of_ne_nil hr
        rw [hc] at hnone
        exact Lib.Tree.leaf?_setChild hnone _ _
    · have hn : (cw.addWrite n p).completeNodeAtPath q = cw.completeNodeAtPath q :=
        completeNode_addWriteTree_apart cw.leafValues n ⟨hpq, hqp⟩
      rw [hn, leafAt_applyToNode h]

theorem completeNode_subtreeAtPath {t : ImmutableTree κ (Lib.Tree κ ℓ)} {p : List κ} (h : completeNode t p = none)
    (q : List κ) : completeNode (t.subtreeAtPath p) q = completeNode t (p ++ q) := by
  induction p generalizing t with
  | nil => rfl
  | cons k p ih =>
    cases hv : t.value with
    | some v =>
      rw [completeNode_of_value hv] at h
      cases h
    | none =>
      rw [completeNode_cons hv] at h
      rw [ImmutableTree.subtreeAtPath_cons, ih h, List.cons_append, completeNode_cons hv]

theorem completeNodeAtPath_childCompoundWriteAtPath (cw : CompoundWrite κ ℓ) (p q : List κ) :
    (cw.childCompoundWriteAtPath p).completeNodeAtPath q = cw.completeNodeAtPath (p ++ q) := by
  unfold childCompoundWriteAtPath
  cases p with
  | nil => rfl
  | cons k p =>
    cases hn : cw.completeNodeAtPath (k :: p) with
    | some n =>
      rw [completeNodeAtPath_append q hn]
      exact completeNode_of_value rfl q
    | none => exact completeNode_subtreeAtPath hn q

theorem valueAtPath_subtreeAtPath (t : ImmutableTree κ (Lib.Tree κ ℓ)) (p q : List κ) :
    (t.subtreeAtPath p).valueAtPath q = t.valueAtPath (p ++ q) := by
  induction p generalizing t with
  | nil => rfl
  | cons k p ih => rw [ImmutableTree.subtreeAtPath_cons, ih, List.cons_append, ImmutableTree.valueAtPath_cons]

theorem ClearFor.childCompoundWriteAtPath (h : cw.ClearFor t) (p : List κ) :
    (cw.childCompoundWriteAtPath p).ClearFor (t.get p) := by
  intro q hq
  unfold CompoundWrite.childCompoundWriteAtPath at hq
  split at hq
  · rename_i hp
    rw [List.isEmpty_iff.1 hp]
    exact h q hq
  · split at hq
    · cases q with
      | nil => exact Lib.Tree.clear_nil _
      | cons k q => exact absurd rfl hq
    · rw [valueAtPath_subtreeAtPath] at hq
      exact (h _ hq).get

/-- **Reading below a path** commutes with applying. -/
theorem applyToNode_childCompoundWriteAtPath (h : cw.ClearFor t) (p : List κ) :
    Same ((cw.childCompoundWriteAtPath p).applyToNode (t.get p)) ((cw.applyToNode t).get p) := by
  intro q
  rw [leafAt_applyToNode (h.childCompoundWriteAtPath p), completeNodeAtPath_childCompoundWriteAtPath,
    ← Lib.Tree.leafAt_append, ← Lib.Tree.leafAt_append, leafAt_applyToNode h]

/-! ## Canonical values -/

/-- The written nodes are canonical. -/
def CanonicalValues (cw : CompoundWrite κ ℓ) : Prop := ∀ p v, cw.writeTree.valueAtPath p = some v → Canonical v

theorem canonicalValues_emptyWrite : CanonicalValues (emptyWrite : CompoundWrite κ ℓ) := by
  intro p v hv
  cases p <;> cases hv

theorem canonical_addWriteTree {t : ImmutableTree κ (Lib.Tree κ ℓ)} (ht : t.LeafValues)
    (h : ∀ p v, t.valueAtPath p = some v → Canonical v) {n : Lib.Tree κ ℓ} (hn : Canonical n) (p q : List κ)
    {v : Lib.Tree κ ℓ} (hv : (addWriteTree n t p).valueAtPath q = some v) : Canonical v := by
  induction p generalizing t q with
  | nil =>
    cases q with
    | nil => cases hv; exact hn
    | cons j q => cases hv
  | cons k p ih =>
    cases hroot : t.value with
    | some w =>
      rw [addWriteTree_of_value ht hroot] at hv
      cases q with
      | nil =>
        cases hv
        exact (h [] w hroot).set hn _
      | cons j q => cases hv
    | none =>
      cases q with
      | nil =>
        rw [ImmutableTree.valueAtPath, value_addWriteTree_cons hroot] at hv
        cases hv
      | cons j q =>
        rw [ImmutableTree.valueAtPath_cons] at hv
        by_cases hj : j = k
        · subst hj
          rw [child_addWriteTree_self ht hroot] at hv
          exact ih (ht.child j) (fun p v hv => h (j :: p) v (by rw [ImmutableTree.valueAtPath_cons]; exact hv)) q hv
        · rw [child_addWriteTree_of_ne hroot hj] at hv
          exact h (j :: q) v (by rw [ImmutableTree.valueAtPath_cons]; exact hv)

namespace CanonicalValues

theorem addWrite (h : cw.CanonicalValues) {n : Lib.Tree κ ℓ} (hn : Canonical n) (p : List κ) :
    (cw.addWrite n p).CanonicalValues :=
  fun q _ hv => canonical_addWriteTree cw.leafValues h hn p q hv

theorem of_mem_writes (h : cw.CanonicalValues) {e : List κ × Lib.Tree κ ℓ} (he : e ∈ cw.writes) : Canonical e.2 :=
  h e.1 e.2 (cw.leafValues.mem_forEach.1 he)

theorem completeNodeAtPath (h : cw.CanonicalValues) {p : List κ} {n : Lib.Tree κ ℓ}
    (hn : cw.completeNodeAtPath p = some n) : Canonical n := by
  obtain ⟨q, v, r, hv, -, rfl⟩ := exists_valueAtPath hn
  exact (h q v hv).get r

theorem childCompoundWriteAtPath (h : cw.CanonicalValues) (p : List κ) :
    (cw.childCompoundWriteAtPath p).CanonicalValues := by
  intro q v hv
  have hnode : (cw.childCompoundWriteAtPath p).completeNodeAtPath q = some v := by
    have := completeNode_of_valueAtPath (cw.childCompoundWriteAtPath p).leafValues hv []
    rwa [List.append_nil] at this
  rw [completeNodeAtPath_childCompoundWriteAtPath] at hnode
  exact h.completeNodeAtPath hnode

theorem applyToNode (h : cw.CanonicalValues) (ht : Canonical t) : Canonical (cw.applyToNode t) := by
  rw [CompoundWrite.applyToNode, applySubtreeWrite_eq_foldl cw.leafValues]
  simp only [List.nil_append, List.map_id']
  have hall : ∀ e ∈ cw.writes, Canonical e.2 := fun e he => h.of_mem_writes he
  change ∀ e ∈ cw.writeTree.forEach, Canonical e.2 at hall
  revert hall
  generalize cw.writeTree.forEach = ws
  intro hall
  induction ws generalizing t with
  | nil => exact ht
  | cons w ws ih =>
    obtain ⟨hw, hws⟩ := List.forall_mem_cons.1 hall
    exact ih (ht.set hw w.1) hws

end CanonicalValues

end CompoundWrite

end ChatApp
