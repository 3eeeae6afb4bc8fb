import Mathlib.Order.Lattice
import Mathlib.Data.List.Basic

/-!
# Sorted association lists

What a sorted dictionary holds, as a list of its entries in the order of their keys. `insertKey` puts an entry in its
place (or replaces it), `removeKey` takes it out.

- `lookup_insertKey_self`, `lookup_insertKey_of_ne`, `lookup_removeKey_self`, `lookup_removeKey_of_ne`;
- `Sorted.insertKey`, `Sorted.removeKey`: the list stays sorted;
- `Sorted.ext`: a sorted list is its lookup function;
- `mem_sortKeys`: sorting keeps the entries;
- `insertAfter_none`, `insertAfter_some`: an entry put after the one before it is in its place.
-/

namespace Lib.Assoc

variable {κ α : Type} [LinearOrder κ]

def insertKey (k : κ) (x : α) : List (κ × α) → List (κ × α)
  | [] => [(k, x)]
  | (j, y) :: cs =>
    if k < j then (k, x) :: (j, y) :: cs
    else if k = j then (k, x) :: cs
    else (j, y) :: insertKey k x cs

def removeKey (k : κ) (cs : List (κ × α)) : List (κ × α) := cs.filter fun c => c.1 ≠ k

/-- The keys increase. -/
def Sorted (cs : List (κ × α)) : Prop := cs.Pairwise fun c d => c.1 < d.1

theorem sorted_nil : Sorted ([] : List (κ × α)) := List.Pairwise.nil

theorem sorted_cons {c : κ × α} {cs : List (κ × α)} : Sorted (c :: cs) ↔ (∀ d ∈ cs, c.1 < d.1) ∧ Sorted cs :=
  List.pairwise_cons

/-! ## Membership -/

theorem mem_insertKey {k : κ} {x : α} {cs : List (κ × α)} {c : κ × α} (h : c ∈ insertKey k x cs) :
    c = (k, x) ∨ c ∈ cs := by
  induction cs with
  | nil => exact Or.inl (List.mem_singleton.1 h)
  | cons d cs ih =>
    obtain ⟨j, y⟩ := d
    unfold insertKey at h
    split at h
    · exact List.mem_cons.1 h
    · split at h
      · exact (List.mem_cons.1 h).imp_right (List.mem_cons_of_mem _)
      · rcases List.mem_cons.1 h with rfl | h
        · exact Or.inr List.mem_cons_self
        · exact (ih h).imp_right (List.mem_cons_of_mem _)

theorem mem_removeKey {k : κ} {cs : List (κ × α)} {c : κ × α} : c ∈ removeKey k cs ↔ c ∈ cs ∧ c.1 ≠ k := by
  simp [removeKey]

/-! ## Order -/

theorem Sorted.insertKey {cs : List (κ × α)} (h : Sorted cs) (k : κ) (x : α) : Sorted (insertKey k x cs) := by
  induction cs with
  | nil => exact List.pairwise_singleton _ _
  | cons d cs ih =>
    obtain ⟨j, y⟩ := d
    obtain ⟨hj, hcs⟩ := sorted_cons.1 h
    unfold Assoc.insertKey
    split
    · rename_i hkj
      refine sorted_cons.2 ⟨fun d hd => ?_, h⟩
      rcases List.mem_cons.1 hd with rfl | hd
      · exact hkj
      · exact hkj.trans (hj d hd)
    · rename_i hkj
      split
      · rename_i he
        exact sorted_cons.2 ⟨fun d hd => he ▸ hj d hd, hcs⟩
      · rename_i hne
        refine sorted_cons.2 ⟨fun d hd => ?_, ih hcs⟩
        rcases mem_insertKey hd with rfl | hd
        · exact lt_of_le_of_ne (not_lt.1 hkj) (Ne.symm hne)
        · exact hj d hd

theorem Sorted.removeKey {cs : List (κ × α)} (h : Sorted cs) (k : κ) : Sorted (removeKey k cs) :=
  List.Pairwise.filter _ h

/-! ## Lookup -/

theorem lookup_eq_none_of_lt {k : κ} {cs : List (κ × α)} (h : ∀ c ∈ cs, k < c.1) : cs.lookup k = none := by
  rw [List.lookup_eq_none_iff]
  intro c hc
  simpa using (h c hc).ne

theorem lookup_insertKey_self (k : κ) (x : α) (cs : List (κ × α)) : (insertKey k x cs).lookup k = some x := by
  induction cs with
  | nil => simp [insertKey]
  | cons d cs ih =>
    obtain ⟨j, y⟩ := d
    unfold insertKey
    split
    · simp
    · split
      · simp
      · rename_i hne
        have hb : (k == j) = false := by simpa using hne
        rw [List.lookup_cons, hb]
        exact ih

theorem lookup_insertKey_of_ne {i k : κ} (h : i ≠ k) (x : α) (cs : List (κ × α)) :
    (insertKey k x cs).lookup i = cs.lookup i := by
  have hik : (i == k) = false := by simpa using h
  induction cs with
  | nil => simp [insertKey, List.lookup_cons, hik]
  | cons d cs ih =>
    obtain ⟨j, y⟩ := d
    unfold insertKey
    split
    · simp only [List.lookup_cons, hik]
    · split
      · rename_i he
        subst he
        simp only [List.lookup_cons, hik]
      · simp only [List.lookup_cons, ih]

theorem lookup_removeKey_self (k : κ) (cs : List (κ × α)) : (removeKey k cs).lookup k = none := by
  rw [List.lookup_eq_none_iff]
  intro c hc
  simpa using (mem_removeKey.1 hc).2.symm

theorem lookup_removeKey_of_ne {i k : κ} (h : i ≠ k) (cs : List (κ × α)) :
    (removeKey k cs).lookup i = cs.lookup i := by
  induction cs with
  | nil => rfl
  | cons d cs ih =>
    obtain ⟨j, y⟩ := d
    by_cases hj : j = k
    · have hij : (i == j) = false := by simp [hj, h]
      rw [removeKey, List.filter_cons_of_neg (by simp [hj]), List.lookup_cons, hij]
      exact ih
    · rw [removeKey, List.filter_cons_of_pos (by simp [hj]), List.lookup_cons, List.lookup_cons]
      rw [← ih]
      rfl

theorem mem_of_lookup {k : κ} {x : α} {cs : List (κ × α)} (h : cs.lookup k = some x) : (k, x) ∈ cs := by
  obtain ⟨_, _, heq, -⟩ := List.lookup_eq_some_iff.1 h
  rw [heq]
  simp

theorem Sorted.lookup_of_mem {cs : List (κ × α)} (h : Sorted cs) {k : κ} {x : α} (hm : (k, x) ∈ cs) :
    cs.lookup k = some x := by
  induction cs with
  | nil => cases hm
  | cons d cs ih =>
    obtain ⟨j, y⟩ := d
    obtain ⟨hj, hcs⟩ := sorted_cons.1 h
    rcases List.mem_cons.1 hm with he | hm
    · cases he
      simp
    · have hkj : (k == j) = false := by simpa using (hj _ hm).ne'
      rw [List.lookup_cons, hkj]
      exact ih hcs hm

/-- **A sorted list is its lookup function.** -/
theorem Sorted.ext {cs ds : List (κ × α)} (hc : Sorted cs) (hd : Sorted ds) (h : ∀ k, cs.lookup k = ds.lookup k) :
    cs = ds := by
  induction cs generalizing ds with
  | nil =>
    cases ds with
    | nil => rfl
    | cons d ds =>
      have := h d.1
      rw [hd.lookup_of_mem (x := d.2) List.mem_cons_self] at this
      cases this
  | cons c cs ih =>
    obtain ⟨hlc, hcs⟩ := sorted_cons.1 hc
    have hmem : c ∈ ds := by
      apply mem_of_lookup
      rw [← h]
      exact hc.lookup_of_mem List.mem_cons_self
    cases ds with
    | nil => cases hmem
    | cons d ds =>
      obtain ⟨hld, hds⟩ := sorted_cons.1 hd
      -- the two heads are the least keys of one dictionary
      have hdc : d ∈ c :: cs := by
        apply mem_of_lookup
        rw [h]
        exact hd.lookup_of_mem List.mem_cons_self
      have hcd : c = d := by
        rcases List.mem_cons.1 hmem with he | hmem
        · exact he
        · rcases List.mem_cons.1 hdc with he | hdc
          · exact he.symm
          · exact absurd (hld _ hmem) (hlc _ hdc).asymm
      subst hcd
      rw [ih hcs hds]
      intro k
      by_cases hk : k = c.1
      · rw [hk, lookup_eq_none_of_lt hlc, lookup_eq_none_of_lt hld]
      · have hb : (k == c.1) = false := by simpa using hk
        have hk' := h k
        rw [List.lookup_cons, List.lookup_cons, hb] at hk'
        exact hk'

theorem Sorted.lookup_eq_some {cs : List (κ × α)} (h : Sorted cs) {k : κ} {x : α} :
    cs.lookup k = some x ↔ (k, x) ∈ cs := ⟨mem_of_lookup, h.lookup_of_mem⟩

theorem Sorted.ext_mem {cs ds : List (κ × α)} (hc : Sorted cs) (hd : Sorted ds) (h : ∀ e, e ∈ cs ↔ e ∈ ds) :
    cs = ds := by
  apply hc.ext hd
  intro k
  ext x
  rw [hc.lookup_eq_some, hd.lookup_eq_some, h]

theorem mem_insertKey_self (k : κ) (x : α) (cs : List (κ × α)) : (k, x) ∈ insertKey k x cs :=
  mem_of_lookup (lookup_insertKey_self k x cs)

theorem mem_insertKey_of_ne {k : κ} {x : α} {cs : List (κ × α)} {e : κ × α} (he : e ∈ cs) (hne : e.1 ≠ k) :
    e ∈ insertKey k x cs := by
  induction cs with
  | nil => cases he
  | cons d cs ih =>
    obtain ⟨j, y⟩ := d
    unfold insertKey
    split
    · exact List.mem_cons_of_mem _ he
    · rcases List.mem_cons.1 he with rfl | he
      · rw [if_neg (Ne.symm hne)]
        exact List.mem_cons_self
      · split
        · exact List.mem_cons_of_mem _ he
        · exact List.mem_cons_of_mem _ (ih he)

theorem length_insertKey_le (k : κ) (x : α) (cs : List (κ × α)) : (insertKey k x cs).length ≤ cs.length + 1 := by
  induction cs with
  | nil => exact Nat.le_refl _
  | cons d cs ih =>
    obtain ⟨j, y⟩ := d
    unfold insertKey
    split
    · exact Nat.le_refl _
    · split
      · exact Nat.le_succ _
      · exact Nat.succ_le_succ ih

/-! ## Lists that are cut at a key -/

theorem sorted_append {cs ds : List (κ × α)} :
    Sorted (cs ++ ds) ↔ Sorted cs ∧ Sorted ds ∧ ∀ c ∈ cs, ∀ d ∈ ds, c.1 < d.1 := List.pairwise_append

/-- A node of a search tree: what is left of it is smaller, what is right of it greater. -/
theorem sorted_middle {cs ds : List (κ × α)} {k : κ} {x : α} : Sorted (cs ++ (k, x) :: ds) ↔
    Sorted cs ∧ Sorted ds ∧ (∀ c ∈ cs, c.1 < k) ∧ ∀ d ∈ ds, k < d.1 := by
  rw [sorted_append, sorted_cons]
  constructor
  · rintro ⟨hcs, ⟨hk, hds⟩, hlt⟩
    exact ⟨hcs, hds, fun c hc => hlt c hc _ List.mem_cons_self, hk⟩
  · rintro ⟨hcs, hds, hl, hr⟩
    refine ⟨hcs, ⟨hr, hds⟩, fun c hc d hd => ?_⟩
    rcases List.mem_cons.1 hd with rfl | hd
    · exact hl c hc
    · exact (hl c hc).trans (hr d hd)

theorem insertKey_append_right {k : κ} {x : α} {cs ds : List (κ × α)} (h : ∀ c ∈ cs, c.1 < k) :
    insertKey k x (cs ++ ds) = cs ++ insertKey k x ds := by
  induction cs with
  | nil => rfl
  | cons c cs ih =>
    obtain ⟨hc, hcs⟩ := List.forall_mem_cons.1 h
    rw [List.cons_append, insertKey, if_neg hc.asymm, if_neg hc.ne', ih hcs, List.cons_append]

theorem insertKey_append_left {j k : κ} {x y : α} {cs ds : List (κ × α)} (h : k < j) :
    insertKey k x (cs ++ (j, y) :: ds) = insertKey k x cs ++ (j, y) :: ds := by
  induction cs with
  | nil => simp [insertKey, h]
  | cons c cs ih =>
    rw [List.cons_append, insertKey, insertKey, ih]
    split
    · rfl
    · split <;> rfl

theorem removeKey_append (k : κ) (cs ds : List (κ × α)) : removeKey k (cs ++ ds) = removeKey k cs ++ removeKey k ds :=
  List.filter_append cs ds

theorem removeKey_eq_self {k : κ} {cs : List (κ × α)} (h : ∀ c ∈ cs, c.1 ≠ k) : removeKey k cs = cs :=
  List.filter_eq_self.2 fun c hc => by simpa using h c hc

theorem removeKey_middle_of_lt {j k : κ} {y : α} {cs ds : List (κ × α)} (h : k < j) (hds : ∀ d ∈ ds, j < d.1) :
    removeKey k (cs ++ (j, y) :: ds) = removeKey k cs ++ (j, y) :: ds := by
  have hrest : removeKey k ((j, y) :: ds) = (j, y) :: ds := by
    apply removeKey_eq_self
    rw [List.forall_mem_cons]
    exact ⟨h.ne', fun d hd => (h.trans (hds d hd)).ne'⟩
  rw [removeKey_append, hrest]

theorem removeKey_middle_of_gt {j k : κ} {y : α} {cs ds : List (κ × α)} (h : j < k) (hcs : ∀ c ∈ cs, c.1 < j) :
    removeKey k (cs ++ (j, y) :: ds) = cs ++ (j, y) :: removeKey k ds := by
  rw [removeKey_append, removeKey_eq_self fun c hc => ((hcs c hc).trans h).ne, removeKey, removeKey,
    List.filter_cons_of_pos (by simpa using h.ne)]

theorem removeKey_middle_self {k : κ} {y : α} {cs ds : List (κ × α)} (hcs : ∀ c ∈ cs, c.1 < k)
    (hds : ∀ d ∈ ds, k < d.1) : removeKey k (cs ++ (k, y) :: ds) = cs ++ ds := by
  rw [removeKey_append, removeKey_eq_self fun c hc => (hcs c hc).ne, removeKey, List.filter_cons_of_neg (by simp)]
  rw [← removeKey, removeKey_eq_self fun d hd => (hds d hd).ne']

theorem lookup_middle_self {k : κ} {y : α} {cs ds : List (κ × α)} (hcs : ∀ c ∈ cs, c.1 < k) :
    (cs ++ (k, y) :: ds).lookup k = some y := by
  rw [List.lookup_append, (List.lookup_eq_none_iff.2 fun c hc => by simpa using (hcs c hc).ne')]
  simp

theorem lookup_middle_of_lt {j k : κ} {y : α} {cs ds : List (κ × α)} (h : k < j) (hds : ∀ d ∈ ds, j < d.1) :
    (cs ++ (j, y) :: ds).lookup k = cs.lookup k := by
  have hnone : ((j, y) :: ds).lookup k = none :=
    lookup_eq_none_of_lt (List.forall_mem_cons.2 ⟨h, fun d hd => h.trans (hds d hd)⟩)
  rw [List.lookup_append, hnone, Option.or_none]

theorem lookup_middle_of_gt {j k : κ} {y : α} {cs ds : List (κ × α)} (h : j < k) (hcs : ∀ c ∈ cs, c.1 < j) :
    (cs ++ (j, y) :: ds).lookup k = ds.lookup k := by
  have hj : (k == j) = false := by simpa using h.ne'
  rw [List.lookup_append, (List.lookup_eq_none_iff.2 fun c hc => by simpa using ((hcs c hc).trans h).ne'),
    Option.none_or, List.lookup_cons, hj]

/-! ## Sorting -/

/-- The entries in the order of their keys. -/
def sortKeys (cs : List (κ × α)) : List (κ × α) := cs.foldl (fun sorted c => insertKey c.1 c.2 sorted) []

theorem sorted_sortKeys (cs : List (κ × α)) : Sorted (sortKeys cs) := by
  suffices hall : ∀ {ds : List (κ × α)}, Sorted ds → Sorted (cs.foldl (fun sorted c => insertKey c.1 c.2 sorted) ds) by
    exact hall sorted_nil
  induction cs with
  | nil => exact id
  | cons c cs ih =>
    intro ds hds
    exact ih (hds.insertKey c.1 c.2)

theorem mem_sortKeys {cs : List (κ × α)} (h : (cs.map Prod.fst).Nodup) {e : κ × α} : e ∈ sortKeys cs ↔ e ∈ cs := by
  suffices hall : ∀ {ds : List (κ × α)}, (∀ c ∈ cs, ∀ d ∈ ds, d.1 ≠ c.1) →
      (e ∈ cs.foldl (fun sorted c => insertKey c.1 c.2 sorted) ds ↔ e ∈ ds ∨ e ∈ cs) by
    rw [sortKeys, hall fun _ _ d hd => absurd hd List.not_mem_nil]
    simp
  induction cs with
  | nil => simp
  | cons c cs ih =>
    intro ds hds
    rw [List.map_cons, List.nodup_cons] at h
    have hins : e ∈ insertKey c.1 c.2 ds ↔ e ∈ ds ∨ e = c := by
      constructor
      · intro he
        rcases mem_insertKey he with rfl | he
        · exact Or.inr rfl
        · exact Or.inl he
      · rintro (he | rfl)
        · exact mem_insertKey_of_ne he (hds c List.mem_cons_self e he)
        · exact mem_insertKey_self e.1 e.2 ds
    rw [List.foldl_cons, ih h.2]
    · rw [hins, List.mem_cons, or_assoc]
    · intro b hb d hd
      rcases mem_insertKey hd with rfl | hd
      · exact fun he => h.1 (List.mem_map.2 ⟨b, hb, he.symm⟩)
      · exact hds b (List.mem_cons_of_mem _ hb) d hd

/-! ## An entry after another -/

/-- Put an entry after the one with the key `prev`, at the front when there is none; nothing when `prev` is missing. -/
def insertAfter (prev : Option κ) (k : κ) (x : α) : List (κ × α) → Option (List (κ × α))
  | [] => match prev with
    | none => some [(k, x)]
    | some _ => none
  | c :: cs => match prev with
    | none => some ((k, x) :: c :: cs)
    | some j => if c.1 = j then some (c :: (k, x) :: cs) else (insertAfter prev k x cs).map (c :: ·)

theorem insertAfter_none {k : κ} {x : α} {cs : List (κ × α)} (h : ∀ c ∈ cs, k < c.1) :
    insertAfter none k x cs = some (insertKey k x cs) := by
  cases cs with
  | nil => rfl
  | cons c cs =>
    obtain ⟨j, y⟩ := c
    rw [insertKey, if_pos (h _ List.mem_cons_self)]
    rfl

/-- **Between its neighbours**: after the last smaller key there is the place of a key. -/
theorem insertAfter_some {j k : κ} {x : α} {cs : List (κ × α)} (hs : Sorted cs) (hj : j ∈ cs.map Prod.fst) (hjk : j < k)
    (h : ∀ c ∈ cs, c.1 ≤ j ∨ k < c.1) : insertAfter (some j) k x cs = some (insertKey k x cs) := by
  induction cs with
  | nil => cases hj
  | cons c cs ih =>
    obtain ⟨i, y⟩ := c
    obtain ⟨hi, hs⟩ := sorted_cons.1 hs
    rw [List.forall_mem_cons] at h
    rw [insertAfter, insertKey]
    by_cases hij : i = j
    · subst hij
      have hrest : ∀ c ∈ cs, k < c.1 := fun c hc => (h.2 c hc).resolve_left (not_le.2 (hi c hc))
      rw [if_pos rfl, if_neg hjk.not_gt, if_neg hjk.ne', ← Option.some.injEq]
      congr 2
      cases cs with
      | nil => rfl
      | cons d cs => rw [insertKey, if_pos (hrest _ List.mem_cons_self)]
    · have hmem : j ∈ cs.map Prod.fst := by
        rcases List.mem_cons.1 hj with he | hmem
        · exact absurd he.symm hij
        · exact hmem
      obtain ⟨d, hd, rfl⟩ := List.mem_map.1 hmem
      have hik : i < k := (hi d hd).trans hjk
      rw [if_neg hij, if_neg hik.not_gt, if_neg hik.ne', ih hs hmem h.2]
      rfl

/-- Replacing an entry where it is. -/
theorem map_replace_eq {k : κ} {x : α} {cs : List (κ × α)} (hs : Sorted cs) (hk : k ∈ cs.map Prod.fst) :
    (cs.map fun c => if c.1 = k then (k, x) else c) = insertKey k x cs := by
  induction cs with
  | nil => cases hk
  | cons c cs ih =>
    obtain ⟨i, y⟩ := c
    obtain ⟨hi, hs⟩ := sorted_cons.1 hs
    rw [List.map_cons, insertKey]
    by_cases hik : i = k
    · subst hik
      have hrest : (cs.map fun c => if c.1 = i then (i, x) else c) = cs := by
        conv_rhs => rw [← List.map_id cs]
        exact List.map_congr_left fun d hd => if_neg (hi d hd).ne'
      rw [if_pos rfl, if_neg (lt_irrefl i), if_pos rfl, hrest]
    · have hmem : k ∈ cs.map Prod.fst := by
        rcases List.mem_cons.1 hk with he | hmem
        · exact absurd he.symm hik
        · exact hmem
      obtain ⟨d, hd, rfl⟩ := List.mem_map.1 hmem
      have hlt : i < d.1 := hi d hd
      simp only [if_neg hik, if_neg hlt.not_gt, if_neg (Ne.symm hik), ih hs hmem]

omit [LinearOrder κ] in
theorem lookup_eq_some_iff_mem [DecidableEq κ] {cs : List (κ × α)} (h : (cs.map Prod.fst).Nodup) {k : κ} {x : α} :
    cs.lookup k = some x ↔ (k, x) ∈ cs := by
  induction cs with
  | nil => simp
  | cons c cs ih =>
    obtain ⟨i, y⟩ := c
    rw [List.map_cons, List.nodup_cons] at h
    by_cases hki : k = i
    · subst hki
      have hnot : (k, x) ∉ cs := fun hm => h.1 (List.mem_map.2 ⟨_, hm, rfl⟩)
      simp [hnot, eq_comm]
    · have hne : (k == i) = false := by simpa using hki
      rw [List.lookup_cons, hne, ih h.2]
      simp [hki]

theorem nodup_keys {cs : List (κ × α)} (h : Sorted cs) : (cs.map Prod.fst).Nodup := by
  rw [List.Nodup, List.pairwise_map]
  exact h.imp fun hlt => hlt.ne

end Lib.Assoc
