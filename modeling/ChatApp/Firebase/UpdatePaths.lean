import ChatApp.Firebase.Keys
import ChatApp.Firebase.WriteTree
import Mathlib.Data.List.Chain
import Mathlib.Logic.Embedding.Basic

/-!
# The paths of an update

`FSnapshotUtilities.compoundWriteFromDictionary:` makes a compound write of the dictionary given to `updateChildValues`,
whose keys are paths. It adds the values in whatever order the dictionary enumerates them, then sorts the paths
(`FPath.compare:`) and looks for an ancestor among neighbours only.

Three notions of a key meet here. Paths are sorted by `compareKey`, tested for ancestors by `isEqualToString`, and
stored by the `stringComparator` of a compound write. `κ` is a set of keys in the order of the latter, which tells them
apart, and `name` gives their strings, of which `compareKey` takes no two for the same (`Name`).

- `FPath.compare_compares`: the order of paths is the lexicographic one;
- `prefix_of_between`: between a path and a path below it there are only paths below it;
- `ancestorCheck_eq_ok`: so looking at neighbours finds every ancestor;
- `valueAtPath_addWrites_apart`: paths that are apart keep their own values;
- `compoundWriteFromDictionary_spec`: the update is accepted exactly when no path is an ancestor of another, and then
  the compound write has exactly the given values and does not depend on the order.
-/

namespace ChatApp

open Lib.Tree (Apart)
open FUtilities (compareKey)

/-! ## The order of paths -/

namespace FPath

def compare : List Name → List Name → Ordering
  | [], [] => .eq
  | [], _ :: _ => .lt
  | _ :: _, [] => .gt
  | a :: p, b :: q =>
    match compareKey (.name a.val) (.name b.val) with
    | .eq => compare p q
    | comparison => comparison

def toString (path : List Name) : String :=
  if path.isEmpty then "/" else path.foldl (fun pathString piece => pathString ++ "/" ++ piece.val) ""

/-- **Paths are compared lexicographically.** -/
theorem compare_compares (p q : List Name) : (compare p q).Compares p q := by
  induction p generalizing q with
  | nil =>
    cases q with
    | nil => rfl
    | cons b q => exact List.nil_lt_cons b q
  | cons a p ih =>
    cases q with
    | nil => exact List.nil_lt_cons a p
    | cons b q =>
      unfold compare
      rw [← Name.cmp_eq]
      cases ho : cmp a b with
      | lt =>
        have hab : a < b := (cmp_eq_lt_iff a b).1 ho
        exact List.cons_lt_cons_iff.2 (Or.inl hab)
      | eq =>
        have hab : a = b := (cmp_eq_eq_iff a b).1 ho
        subst hab
        have hrest := ih q
        dsimp only
        cases hpq : compare p q with
        | lt =>
          rw [hpq] at hrest
          exact List.cons_lt_cons_iff.2 (Or.inr ⟨rfl, hrest⟩)
        | eq =>
          rw [hpq] at hrest
          exact congrArg _ hrest
        | gt =>
          rw [hpq] at hrest
          exact List.cons_lt_cons_iff.2 (Or.inr ⟨rfl, hrest⟩)
      | gt =>
        have hba : b < a := (cmp_eq_gt_iff a b).1 ho
        exact List.cons_lt_cons_iff.2 (Or.inl hba)

end FPath

section Order

variable {κ : Type} [LinearOrder κ]

/-- A path comes before the paths below it. -/
theorem le_of_above {p q : List κ} (h : p <+: q) : p ≤ q := by
  rw [← not_lt]
  intro hlt
  induction p generalizing q with
  | nil => exact absurd hlt (List.not_lt_nil q)
  | cons k p ih =>
    obtain ⟨r, rfl⟩ := h
    rw [List.cons_append, List.cons_lt_cons_iff] at hlt
    rcases hlt with hlt | ⟨-, hlt⟩
    · exact lt_irrefl k hlt
    · exact ih (List.prefix_append p r) hlt

/-- **Between a path and a path below it** there are only paths below it. -/
theorem prefix_of_between {p q r : List κ} (hr : p <+: r) (hpq : p ≤ q) (hqr : q ≤ r) : p <+: q := by
  induction p generalizing q r with
  | nil => exact List.nil_prefix
  | cons k p ih =>
    obtain ⟨r, rfl⟩ := hr
    cases q with
    | nil => exact absurd (List.nil_lt_cons k p) hpq.not_gt
    | cons j q =>
      rw [List.cons_append] at hqr
      have hjk : j = k := by
        by_contra hne
        rcases lt_or_gt_of_ne hne with hlt | hlt
        · exact hpq.not_gt (List.cons_lt_cons_iff.2 (Or.inl hlt))
        · exact hqr.not_gt (List.cons_lt_cons_iff.2 (Or.inl hlt))
      subst hjk
      rw [List.cons_prefix_cons]
      refine ⟨rfl, ih (List.prefix_append p r) ?_ ?_⟩
      · rw [← not_lt]
        intro hlt
        exact hpq.not_gt (List.cons_lt_cons_iff.2 (Or.inr ⟨rfl, hlt⟩))
      · rw [← not_lt]
        intro hlt
        exact hqr.not_gt (List.cons_lt_cons_iff.2 (Or.inr ⟨rfl, hlt⟩))

/-- In sorted paths the neighbours tell whether all are apart. -/
theorem pairwise_apart_of_chain {p : List κ} {ps : List (List κ)} (hs : (p :: ps).Pairwise (· ≤ ·))
    (hc : List.IsChain (fun q r => ¬q <+: r) (p :: ps)) : (p :: ps).Pairwise Apart := by
  induction ps generalizing p with
  | nil => exact List.pairwise_singleton _ _
  | cons q ps ih =>
    obtain ⟨hle, hs'⟩ := List.pairwise_cons.1 hs
    obtain ⟨hpq, hc'⟩ := List.isChain_cons_cons.1 hc
    have hrest := ih hs' hc'
    have hbelow : ∀ r ∈ q :: ps, ¬p <+: r := by
      intro r hr hpr
      -- the neighbour of `p` is between them
      have hqr : q ≤ r := by
        rcases List.mem_cons.1 hr with rfl | hr
        · exact le_rfl
        · exact (List.pairwise_cons.1 hs').1 r hr
      exact hpq (prefix_of_between hpr (hle q List.mem_cons_self) hqr)
    refine List.pairwise_cons.2 ⟨fun r hr => ⟨hbelow r hr, fun hrp => hbelow r hr ?_⟩, hrest⟩
    rw [le_antisymm (le_of_above hrp) (hle r hr)]

end Order

/-! ## The check -/

namespace FSnapshotUtilities

def ancestorFault (fn : String) (prevPath path : List Name) : Fault :=
  .exception "InvalidFirebaseData" ("(" ++ fn ++ ") Invalid path in object. Path (" ++ FPath.toString prevPath ++
    ") is an ancestor of (" ++ FPath.toString path ++ ").")

variable {κ ℓ : Type} (name : κ ↪ Name)

/-- The paths sorted by the strings of their keys. -/
def sortPaths (updatePaths : List (List κ)) : List (List κ) :=
  updatePaths.mergeSort fun left right => FPath.compare (left.map name) (right.map name) != .gt

variable [LinearOrder κ]

/-- The loop over the sorted paths, with the path before. -/
def ancestorCheck (fn : String) : Option (List κ) → List (List κ) → Except Fault Unit
  | _, [] => .ok ()
  | none, path :: paths => ancestorCheck fn (some path) paths
  | some prevPath, path :: paths =>
    if prevPath <+: path then .error (ancestorFault fn (prevPath.map name) (path.map name))
    else ancestorCheck fn (some path) paths

/-- The values in the order of the enumeration, then the check of the sorted paths. -/
def compoundWriteFromDictionary (fn : String) (values : List (List κ × Lib.Tree κ ℓ)) :
    Except Fault (CompoundWrite κ ℓ) := do
  let compoundWrite := values.foldl (fun compoundWrite value => compoundWrite.addWrite value.2 value.1)
    CompoundWrite.emptyWrite
  ancestorCheck name fn none (sortPaths name (values.map Prod.fst))
  return compoundWrite

theorem ancestorCheck_some (fn : String) (p : List κ) (ps : List (List κ)) :
    ancestorCheck name fn (some p) ps = .ok () ↔ List.IsChain (fun q r => ¬q <+: r) (p :: ps) := by
  induction ps generalizing p with
  | nil => simp [ancestorCheck]
  | cons q ps ih =>
    rw [List.isChain_cons_cons, ← ih q]
    by_cases h : p <+: q
    · simp [ancestorCheck, h]
    · rw [ancestorCheck, if_neg h]
      exact ⟨fun hrest => ⟨h, hrest⟩, fun hrest => hrest.2⟩

omit [LinearOrder κ] in
theorem sortPaths_sorted (ps : List (List κ)) : ((sortPaths name ps).map (List.map name)).Pairwise (· ≤ ·) := by
  have hle : ∀ p q : List κ, (FPath.compare (p.map name) (q.map name) != .gt) = true ↔ p.map name ≤ q.map name := by
    intro p q
    rw [bne_iff_ne, (FPath.compare_compares _ _).ne_gt]
  have hsorted : (sortPaths name ps).Pairwise fun p q =>
      (FPath.compare (p.map name) (q.map name) != .gt) = true := by
    apply List.pairwise_mergeSort
    · intro p q r hpq hqr
      rw [hle] at hpq hqr ⊢
      exact hpq.trans hqr
    · intro p q
      rw [Bool.or_eq_true, hle, hle]
      exact le_total _ _
  exact List.pairwise_map.2 (hsorted.imp fun h => (hle _ _).1 h)

omit [LinearOrder κ] in
/-- Ancestors are the same among keys and among their strings. -/
theorem map_prefix_iff {p q : List κ} : p.map name <+: q.map name ↔ p <+: q := by
  constructor
  · intro h
    obtain ⟨r, hr⟩ := h
    obtain ⟨p', r', rfl, hp, -⟩ := List.map_eq_append_iff.1 hr.symm
    rw [List.map_injective_iff.2 name.injective hp]
    exact List.prefix_append p r'
  · exact fun h => h.map name

/-- **Looking at neighbours finds every ancestor.** -/
theorem ancestorCheck_eq_ok (fn : String) (ps : List (List κ)) :
    ancestorCheck name fn none (sortPaths name ps) = .ok () ↔ ps.Pairwise Apart := by
  have hperm : (sortPaths name ps).Perm ps := List.mergeSort_perm _ _
  rw [← hperm.pairwise_iff fun h => h.symm]
  have hsorted := sortPaths_sorted name ps
  cases hps : sortPaths name ps with
  | nil => simp [ancestorCheck]
  | cons p qs =>
    rw [hps, List.map_cons] at hsorted
    rw [ancestorCheck, ancestorCheck_some]
    constructor
    · intro hchain
      have hnames : List.IsChain (fun q r => ¬q <+: r) ((p :: qs).map (List.map name)) := by
        rw [List.isChain_map]
        exact hchain.imp fun q r hqr => by rwa [map_prefix_iff]
      have hapart : ((p :: qs).map (List.map name)).Pairwise Apart := pairwise_apart_of_chain hsorted hnames
      exact (List.pairwise_map.1 hapart).imp fun h => ⟨fun hpre => h.1 (hpre.map name), fun hpre => h.2 (hpre.map name)⟩
    · intro h
      exact (h.imp fun hap => hap.1).isChain

end FSnapshotUtilities

/-! ## The values of an update -/

namespace CompoundWrite

variable {κ ℓ : Type} [LinearOrder κ]

theorem valueAtPath_addWriteTree_uncovered {t : ImmutableTree κ (Lib.Tree κ ℓ)} (h : t.LeafValues) (n : Lib.Tree κ ℓ)
    {p : List κ} (hp : Uncovered t p) (q : List κ) : (addWriteTree n t p).valueAtPath q =
      if q = p then some n else if p <+: q then none else t.valueAtPath q := by
  induction p generalizing t q with
  | nil =>
    cases q with
    | nil => rfl
    | cons j q => simp [addWriteTree_nil, ImmutableTree.valueAtPath, ImmutableTree.ofValue]
  | cons k p ih =>
    obtain ⟨hv, hchild⟩ := uncovered_cons.1 hp
    cases q with
    | nil =>
      rw [if_neg (by simp), if_neg (by simp)]
      exact (value_addWriteTree_cons hv n k p).trans hv.symm
    | cons j q =>
      rw [ImmutableTree.valueAtPath_cons, ImmutableTree.valueAtPath_cons]
      by_cases hj : j = k
      · subst hj
        rw [child_addWriteTree_self h hv, ih (h.child j) hchild]
        simp only [List.cons.injEq, true_and, List.cons_prefix_cons]
      · rw [child_addWriteTree_of_ne hv hj, if_neg (by simp [hj]), if_neg (by simp [List.cons_prefix_cons, Ne.symm hj])]

/-- **Writes that are apart keep their own values.** -/
theorem valueAtPath_addWrites_apart {ws : List (List κ × Lib.Tree κ ℓ)} (h : ws.Pairwise fun v w => Apart v.1 w.1)
    (q : List κ) (n : Lib.Tree κ ℓ) :
    (addWrites ws emptyWrite).writeTree.valueAtPath q = some n ↔ (q, n) ∈ ws := by
  induction ws using List.reverseRecOn with
  | nil =>
    have hnone : (emptyWrite : CompoundWrite κ ℓ).writeTree.valueAtPath q = none := by cases q <;> rfl
    simp [hnone]
  | append_singleton ws w ih =>
    obtain ⟨hws, -, hap⟩ := List.pairwise_append.1 h
    have hapart : ∀ v ∈ ws, Apart v.1 w.1 := fun v hv => hap v hv w List.mem_cons_self
    have hunc : Uncovered (addWrites ws emptyWrite).writeTree w.1 := by
      intro r hr hne
      by_contra hval
      obtain ⟨v, hv, rfl⟩ := List.mem_map.1 (valueAtPath_addWrites_empty hval)
      exact (hapart v hv).1 hr
    rw [addWrites_append, addWrites_cons, addWrites_nil, addWrite,
      valueAtPath_addWriteTree_uncovered (addWrites ws emptyWrite).leafValues w.2 hunc, List.mem_append,
      List.mem_singleton]
    split
    · rename_i hq
      subst hq
      have hnot : (w.1, n) ∉ ws := fun hm => (hapart _ hm).1 (List.prefix_refl _)
      obtain ⟨p, m⟩ := w
      simp [hnot, eq_comm]
    · rename_i hq
      have hnot : (q, n) ≠ w := fun he => hq (congrArg Prod.fst he)
      split
      · rename_i hpre
        have hmem : (q, n) ∉ ws := fun hm => (hapart _ hm).2 hpre
        simp [hmem, hnot]
      · rw [ih hws]
        simp [hnot]

/-- Compound writes with the same values are the same. -/
theorem ext_valueAtPath {t u : ImmutableTree κ (Lib.Tree κ ℓ)} (ht : t.LeafValues) (hu : u.LeafValues)
    (h : ∀ q, t.valueAtPath q = u.valueAtPath q) : t = u := by
  induction ht generalizing u with
  | value v => exact (hu.eq_ofValue (h []).symm).symm
  | @node cs hs hne hcs ih =>
    apply (ImmutableTree.LeafValues.node hs hne hcs).ext hu (h [])
    intro k
    have hk : ∀ q, ((ImmutableTree.mk none cs).child k).valueAtPath q = (u.child k).valueAtPath q := by
      intro q
      rw [← ImmutableTree.valueAtPath_cons, ← ImmutableTree.valueAtPath_cons]
      exact h (k :: q)
    cases hl : cs.lookup k with
    | none =>
      have hempty : (ImmutableTree.mk none cs).child k = .empty := by simp [ImmutableTree.child, hl]
      rw [hempty] at hk ⊢
      refine ((hu.child k).eq_empty fun q => ?_).symm
      rw [← hk q]
      cases q <;> rfl
    | some c =>
      have hc : (ImmutableTree.mk none cs).child k = c := by simp [ImmutableTree.child, hl]
      rw [hc] at hk ⊢
      exact ih (k, c) (Lib.Assoc.mem_of_lookup hl) (hu.child k) hk

end CompoundWrite

namespace FSnapshotUtilities

variable {κ ℓ : Type} [LinearOrder κ] (name : κ ↪ Name)

theorem compoundWriteFromDictionary_eq_ok (fn : String) (values : List (List κ × Lib.Tree κ ℓ))
    (cw : CompoundWrite κ ℓ) : compoundWriteFromDictionary name fn values = .ok cw ↔
      values.Pairwise (fun v w => Apart v.1 w.1) ∧ cw = CompoundWrite.addWrites values CompoundWrite.emptyWrite := by
  rw [← List.pairwise_map (f := Prod.fst), ← ancestorCheck_eq_ok name fn]
  unfold compoundWriteFromDictionary
  cases ancestorCheck name fn none (sortPaths name (values.map Prod.fst)) with
  | error f => simp [bind, Except.bind]
  | ok u => simp [bind, Except.bind, pure, Except.pure, CompoundWrite.addWrites, eq_comm]

/-- Writes that are apart can be added in any order. -/
theorem addWrites_perm {values values' : List (List κ × Lib.Tree κ ℓ)} (h : values.Pairwise fun v w => Apart v.1 w.1)
    (hperm : values'.Perm values) : CompoundWrite.addWrites values CompoundWrite.emptyWrite =
      CompoundWrite.addWrites values' CompoundWrite.emptyWrite := by
  have h' : values'.Pairwise fun v w => Apart v.1 w.1 := (hperm.pairwise_iff fun h => h.symm).2 h
  apply CompoundWrite.ext
  apply CompoundWrite.ext_valueAtPath (CompoundWrite.leafValues _) (CompoundWrite.leafValues _)
  intro q
  apply Option.ext
  intro n
  rw [CompoundWrite.valueAtPath_addWrites_apart h, CompoundWrite.valueAtPath_addWrites_apart h', hperm.mem_iff]

/-- **The update of a dictionary.** It is accepted exactly when no path is an ancestor of another or the same. The
compound write then has exactly the values given, and the order of the enumeration makes no difference. -/
theorem compoundWriteFromDictionary_spec (fn : String) (values : List (List κ × Lib.Tree κ ℓ)) :
    ((∃ cw, compoundWriteFromDictionary name fn values = .ok cw) ↔ values.Pairwise fun v w => Apart v.1 w.1) ∧
    ∀ cw, compoundWriteFromDictionary name fn values = .ok cw → (∀ p n, (p, n) ∈ cw.writes ↔ (p, n) ∈ values) ∧
      ∀ values', values'.Perm values → compoundWriteFromDictionary name fn values' = .ok cw := by
  refine ⟨⟨?_, fun h => ?_⟩, fun cw h => ?_⟩
  · rintro ⟨cw, h⟩
    exact ((compoundWriteFromDictionary_eq_ok name fn values cw).1 h).1
  · exact ⟨_, (compoundWriteFromDictionary_eq_ok name fn values _).2 ⟨h, rfl⟩⟩
  · obtain ⟨hap, rfl⟩ := (compoundWriteFromDictionary_eq_ok name fn values cw).1 h
    refine ⟨fun p n => ?_, fun values' hperm => ?_⟩
    · rw [CompoundWrite.writes, (CompoundWrite.leafValues _).mem_forEach,
        CompoundWrite.valueAtPath_addWrites_apart hap]
    · have hap' : values'.Pairwise fun v w => Apart v.1 w.1 := (hperm.pairwise_iff fun h => h.symm).2 hap
      exact (compoundWriteFromDictionary_eq_ok name fn values' _).2 ⟨hap', addWrites_perm hap hperm⟩

end FSnapshotUtilities

end ChatApp
