import ChatApp.Lib.Tree

/-!
# What a tree holds: its leaves

Two trees hold the same data when they have the same leaves at the same paths (`Same`), however their dictionaries are
ordered. A tree is canonical when it has no empty dictionary, no empty child and no key twice (`Canonical`); the
operations of `Lib.Tree` keep this.

- `leafAt_set`: a write changes the leaves below its path and no others, when no leaf is in its way (`Clear`);
- `Canonical.set`, `Canonical.get`: canonical trees stay canonical;
- `Canonical.eq_empty`, `isEqual_iff`: emptiness and equality are about leaves.
-/

namespace Lib.Tree

variable {κ ℓ : Type}

def leaf? : Tree κ ℓ → Option ℓ
  | leaf l => some l
  | _ => none

theorem eq_leaf {t : Tree κ ℓ} {l : ℓ} (h : t.leaf? = some l) : t = leaf l := by
  cases t <;> simp_all [leaf?]

/-! ## Paths -/

/-- Neither path extends the other. -/
def Apart (p q : List κ) : Prop := ¬p <+: q ∧ ¬q <+: p

theorem Apart.symm {p q : List κ} (h : Apart p q) : Apart q p := ⟨h.2, h.1⟩

@[simp] theorem apart_cons {k : κ} {p q : List κ} : Apart (k :: p) (k :: q) ↔ Apart p q := by
  simp [Apart, List.cons_prefix_cons]

theorem apart_cons_of_ne {j k : κ} (h : j ≠ k) (p q : List κ) : Apart (j :: p) (k :: q) := by
  simp [Apart, List.cons_prefix_cons, h, h.symm]

@[simp] theorem apart_append {r p q : List κ} : Apart (r ++ p) (r ++ q) ↔ Apart p q := by
  simp [Apart, List.prefix_append_right_inj]

section Leaves

variable [DecidableEq κ]

/-- The leaf at a path. -/
def leafAt (t : Tree κ ℓ) (p : List κ) : Option ℓ := (t.get p).leaf?

/-- The same leaves at the same paths. -/
def Same (t u : Tree κ ℓ) : Prop := ∀ p, t.leafAt p = u.leafAt p

theorem Same.refl (t : Tree κ ℓ) : Same t t := fun _ => rfl

theorem Same.symm {t u : Tree κ ℓ} (h : Same t u) : Same u t := fun p => (h p).symm

theorem Same.trans {t u v : Tree κ ℓ} (h : Same t u) (h' : Same u v) : Same t v := fun p => (h p).trans (h' p)

@[simp] theorem get_nil (t : Tree κ ℓ) : t.get [] = t := rfl

theorem get_append (p q : List κ) (t : Tree κ ℓ) : t.get (p ++ q) = (t.get p).get q := by
  induction p generalizing t with
  | nil => rfl
  | cons k p ih => exact ih _

theorem leafAt_append (t : Tree κ ℓ) (p q : List κ) : t.leafAt (p ++ q) = (t.get p).leafAt q := by
  rw [leafAt, get_append]
  rfl

theorem leafAt_cons (t : Tree κ ℓ) (k : κ) (p : List κ) : t.leafAt (k :: p) = (t.child k).leafAt p := rfl

/-- Trees with the same leaves have the same leaves below every path. -/
theorem Same.get {t u : Tree κ ℓ} (h : Same t u) (p : List κ) : Same (t.get p) (u.get p) := by
  intro q
  rw [← leafAt_append, ← leafAt_append]
  exact h (p ++ q)

theorem Same.child {t u : Tree κ ℓ} (h : Same t u) (k : κ) : Same (t.child k) (u.child k) := h.get [k]

@[simp] theorem child_empty (k : κ) : (empty : Tree κ ℓ).child k = empty := rfl

@[simp] theorem child_leaf (l : ℓ) (k : κ) : (leaf l : Tree κ ℓ).child k = empty := rfl

@[simp] theorem get_empty (p : List κ) : (empty : Tree κ ℓ).get p = empty := by
  induction p with
  | nil => rfl
  | cons k p ih => exact ih

@[simp] theorem leafAt_empty (p : List κ) : (empty : Tree κ ℓ).leafAt p = none := by
  rw [leafAt, get_empty]
  rfl

/-! ## Paths that no leaf blocks -/

/-- No leaf is strictly above the path. -/
def Clear (t : Tree κ ℓ) (p : List κ) : Prop := ∀ q, q <+: p → q ≠ p → t.leafAt q = none

theorem clear_nil (t : Tree κ ℓ) : t.Clear [] := fun _ hq hne => absurd (List.prefix_nil.1 hq) hne

theorem clear_cons {t : Tree κ ℓ} {k : κ} {p : List κ} : t.Clear (k :: p) ↔ t.leaf? = none ∧ (t.child k).Clear p := by
  constructor
  · intro h
    refine ⟨h [] List.nil_prefix (by simp), fun q hq hne => ?_⟩
    exact h (k :: q) (List.cons_prefix_cons.2 ⟨rfl, hq⟩) (by simpa using hne)
  · rintro ⟨h0, h⟩ q hq hne
    cases q with
    | nil => exact h0
    | cons j q =>
      obtain ⟨rfl, hqp⟩ := List.cons_prefix_cons.1 hq
      exact h q hqp (by simpa using hne)

theorem Clear.congr {t u : Tree κ ℓ} (h : Same t u) {p : List κ} (hc : t.Clear p) : u.Clear p :=
  fun q hq hne => (h q).symm.trans (hc q hq hne)

theorem Clear.get {t : Tree κ ℓ} {p q : List κ} (hc : t.Clear (p ++ q)) : (t.get p).Clear q := by
  intro r hr hne
  rw [← leafAt_append]
  exact hc (p ++ r) (List.prefix_append_right_inj p |>.2 hr) (by simpa using hne)

theorem leaf?_setChild {t : Tree κ ℓ} (h : t.leaf? = none) (k : κ) (x : Tree κ ℓ) : (t.setChild k x).leaf? = none := by
  unfold setChild
  split
  · cases t with
    | leaf l => cases h
    | empty => rfl
    | node cs =>
      simp only
      unfold ofChildren
      split <;> rfl
  · rfl

/-- **A write with no leaf in its way** replaces the leaves below its path. -/
theorem leafAt_set {t : Tree κ ℓ} {p : List κ} (hc : t.Clear p) (x : Tree κ ℓ) (q : List κ) :
    (t.set p x).leafAt q = if p <+: q then x.leafAt (q.drop p.length) else t.leafAt q := by
  induction p generalizing t q with
  | nil => simp [set]
  | cons k p ih =>
    obtain ⟨h0, hc⟩ := clear_cons.1 hc
    cases q with
    | nil =>
      have hset : (t.set (k :: p) x).leafAt [] = none := leaf?_setChild h0 _ _
      rw [hset, if_neg (by simp)]
      exact h0.symm
    | cons j q =>
      rw [set, leafAt_cons]
      by_cases hj : j = k
      · subst hj
        rw [child_setChild_self, ih hc]
        simp [List.cons_prefix_cons, leafAt_cons]
      · rw [child_setChild_of_ne _ _ hj, if_neg (by simp [List.cons_prefix_cons, Ne.symm hj]), leafAt_cons]

theorem get_set_append (t x : Tree κ ℓ) (p q : List κ) : (t.set p x).get (p ++ q) = x.get q := by
  rw [get_append, get_set_self]

/-- Above its path a write is seen as a write. -/
theorem get_set_of_append (t x : Tree κ ℓ) (p q : List κ) : (t.set (p ++ q) x).get p = (t.get p).set q x := by
  induction p generalizing t with
  | nil => rfl
  | cons k p ih =>
    rw [List.cons_append, set, get_cons, child_setChild_self]
    exact ih _

/-- Writes with the same data below their path have the same effect. -/
theorem Same.set {t u x y : Tree κ ℓ} {p : List κ} (h : Same t u) (hx : Same x y) (hc : t.Clear p) :
    Same (t.set p x) (u.set p y) := by
  intro q
  rw [leafAt_set hc, leafAt_set (hc.congr h)]
  split
  · exact hx _
  · exact h q

/-- A write leaves another path clear, unless it puts a leaf above it. -/
theorem Clear.set {t x : Tree κ ℓ} {p q : List κ} (hp : t.Clear p) (hq : t.Clear q)
    (hx : p <+: q → p ≠ q → x.Clear (q.drop p.length)) : (t.set p x).Clear q := by
  intro r hr hne
  rw [leafAt_set hp]
  split
  · rename_i hpr
    have hpq : p <+: q := hpr.trans hr
    obtain ⟨s, rfl⟩ := hpr
    obtain ⟨w, rfl⟩ := hr
    have hw : w ≠ [] := fun he => hne (by simp [he])
    refine hx hpq (by simp [hw]) _ ?_ ?_
    · simp
    · simp [hw]
  · exact hq r hr hne

/-- **Writes apart from each other**, none with a leaf in its way: each path has the leaves of the write above it, and
keeps its own when there is none. -/
theorem leafAt_foldl_set {ws : List (List κ × Tree κ ℓ)} (hap : ws.Pairwise fun v w => Apart v.1 w.1) {t : Tree κ ℓ}
    (hc : ∀ w ∈ ws, t.Clear w.1) (q : List κ) :
    (∀ w ∈ ws, w.1 <+: q → (ws.foldl (fun n w => n.set w.1 w.2) t).leafAt q = w.2.leafAt (q.drop w.1.length)) ∧
    ((∀ w ∈ ws, ¬w.1 <+: q) → (ws.foldl (fun n w => n.set w.1 w.2) t).leafAt q = t.leafAt q) := by
  induction ws generalizing t with
  | nil => exact ⟨fun w hw => absurd hw List.not_mem_nil, fun _ => rfl⟩
  | cons v ws ih =>
    obtain ⟨hv, hws⟩ := List.pairwise_cons.1 hap
    have hcv := hc v List.mem_cons_self
    have hclear : ∀ w ∈ ws, (t.set v.1 v.2).Clear w.1 := fun w hw =>
      hcv.set (hc w (List.mem_cons_of_mem _ hw)) fun hpre => absurd hpre (hv w hw).1
    obtain ⟨hin, hout⟩ := ih hws hclear
    rw [List.foldl_cons]
    constructor
    · intro w hw hwq
      rcases List.mem_cons.1 hw with rfl | hw
      · -- the later writes are apart from this one, so none is above `q`
        rw [hout fun u hu huq => ?_, leafAt_set hcv, if_pos hwq]
        rcases List.prefix_or_prefix_of_prefix hwq huq with h | h
        · exact (hv u hu).1 h
        · exact (hv u hu).2 h
      · exact hin w hw hwq
    · intro hno
      rw [hout fun w hw => hno w (List.mem_cons_of_mem _ hw), leafAt_set hcv, if_neg (hno v List.mem_cons_self)]

end Leaves

/-! ## Canonical trees -/

/-- No empty dictionary, no empty child, no key twice. -/
inductive Canonical : Tree κ ℓ → Prop
  | empty : Canonical empty
  | leaf (l : ℓ) : Canonical (leaf l)
  | node {cs : List (κ × Tree κ ℓ)} (hne : cs ≠ []) (hnd : (cs.map Prod.fst).Nodup)
      (hce : ∀ c ∈ cs, c.2 ≠ .empty) (hcs : ∀ c ∈ cs, Canonical c.2) : Canonical (node cs)

theorem isEmpty_eq_false {t : Tree κ ℓ} (h : t ≠ empty) : t.isEmpty = false := by
  cases t with
  | empty => exact absurd rfl h
  | leaf l => rfl
  | node cs => rfl

theorem canonical_ofChildren {cs : List (κ × Tree κ ℓ)} (hnd : (cs.map Prod.fst).Nodup)
    (hce : ∀ c ∈ cs, c.2 ≠ empty) (hcs : ∀ c ∈ cs, Canonical c.2) : Canonical (ofChildren cs) := by
  cases cs with
  | nil => exact .empty
  | cons c cs => exact .node (by simp) hnd hce hcs

section Operations

variable [DecidableEq κ]

theorem Canonical.child {t : Tree κ ℓ} (h : Canonical t) (k : κ) : Canonical (t.child k) := by
  unfold Tree.child
  cases hl : t.children.lookup k with
  | none => exact .empty
  | some x =>
    cases h with
    | empty => cases hl
    | leaf l => cases hl
    | @node cs hne hnd hce hcs =>
      obtain ⟨_, _, heq, -⟩ := List.lookup_eq_some_iff.1 hl
      have hmem : (k, x) ∈ cs := by
        change cs = _ at heq
        rw [heq]
        simp
      exact hcs _ hmem

theorem Canonical.get {t : Tree κ ℓ} (h : Canonical t) (p : List κ) : Canonical (t.get p) := by
  induction p generalizing t with
  | nil => exact h
  | cons k p ih => exact ih (h.child k)

theorem Canonical.setChild {t x : Tree κ ℓ} (h : Canonical t) (hx : Canonical x) (k : κ) :
    Canonical (t.setChild k x) := by
  have hothers : ((t.others k).map Prod.fst).Nodup ∧ (∀ c ∈ t.others k, c.2 ≠ .empty) ∧
      ∀ c ∈ t.others k, Canonical c.2 := by
    cases h with
    | empty => simp [others, children]
    | leaf l => simp [others, children]
    | @node cs hne hnd hce hcs =>
      have hmem : ∀ c ∈ (Tree.node cs).others k, c ∈ cs := fun c hc => (List.mem_filter.1 hc).1
      exact ⟨hnd.sublist (List.filter_sublist.map _), fun c hc => hce c (hmem c hc), fun c hc => hcs c (hmem c hc)⟩
  obtain ⟨hnd, hce, hcs⟩ := hothers
  unfold Tree.setChild
  split
  · split
    · exact h
    · exact canonical_ofChildren hnd hce hcs
  · rename_i hne
    refine .node (by simp) ?_ ?_ ?_
    · rw [List.map_cons, List.nodup_cons]
      refine ⟨fun hmem => ?_, hnd⟩
      obtain ⟨c, hc, he⟩ := List.mem_map.1 hmem
      have := (List.mem_filter.1 hc).2
      simp [he] at this
    · rw [List.forall_mem_cons]
      exact ⟨fun he => hne (by simp only at he; rw [he]; rfl), hce⟩
    · rw [List.forall_mem_cons]
      exact ⟨hx, hcs⟩

theorem Canonical.set {t x : Tree κ ℓ} (h : Canonical t) (hx : Canonical x) (p : List κ) :
    Canonical (t.set p x) := by
  induction p generalizing t with
  | nil => exact hx
  | cons k p ih => exact h.setChild (ih (h.child k)) k

/-- The children in the list are those that are read. -/
theorem Canonical.child_of_mem {t : Tree κ ℓ} (h : Canonical t) {c : κ × Tree κ ℓ} (hc : c ∈ t.children) :
    t.child c.1 = c.2 ∧ c.2 ≠ .empty := by
  cases h with
  | empty => cases hc
  | leaf l => cases hc
  | @node cs hne hnd hce hcs =>
    refine ⟨?_, hce c hc⟩
    obtain ⟨as, bs, hsplit⟩ := List.append_of_mem hc
    change cs = _ at hsplit
    subst hsplit
    have hlook : (as ++ c :: bs).lookup c.1 = some c.2 := by
      rw [List.map_append, List.map_cons, List.nodup_append] at hnd
      rw [List.lookup_eq_some_iff]
      refine ⟨as, bs, rfl, fun d hd => ?_⟩
      have hneq := hnd.2.2 d.1 (List.mem_map_of_mem hd) c.1 List.mem_cons_self
      simpa using hneq.symm
    rw [Tree.child, children, hlook]
    rfl

omit [DecidableEq κ] in
theorem Canonical.keys_nodup {t : Tree κ ℓ} (h : Canonical t) : (t.children.map Prod.fst).Nodup := by
  cases h with
  | empty => exact List.nodup_nil
  | leaf l => exact List.nodup_nil
  | node hne hnd hce hcs => exact hnd

theorem child_eq_empty {t : Tree κ ℓ} {k : κ} (h : k ∉ t.children.map Prod.fst) : t.child k = .empty := by
  rw [Tree.child, List.lookup_eq_none_iff.2]
  · rfl
  · intro c hc
    simpa using fun he : k = c.1 => h (he ▸ List.mem_map_of_mem hc)

/-- A canonical tree that is not empty has a leaf. -/
theorem Canonical.exists_leaf {t : Tree κ ℓ} (h : Canonical t) (hne : t ≠ .empty) : ∃ p, t.leafAt p ≠ none := by
  induction h with
  | empty => exact absurd rfl hne
  | leaf l => exact ⟨[], by simp [leafAt, leaf?]⟩
  | @node cs hcs_ne hnd hce hcs ih =>
    obtain ⟨⟨k, x⟩, cs', rfl⟩ := List.exists_cons_of_ne_nil hcs_ne
    obtain ⟨p, hp⟩ := ih (k, x) List.mem_cons_self (hce _ List.mem_cons_self)
    refine ⟨k :: p, ?_⟩
    have hchild : (Tree.node ((k, x) :: cs')).child k = x := by simp [Tree.child, children]
    rw [leafAt_cons, hchild]
    exact hp

/-- Emptiness is about leaves. -/
theorem Canonical.eq_empty {t : Tree κ ℓ} (h : Canonical t) (hs : Same t .empty) : t = .empty := by
  by_contra hne
  obtain ⟨p, hp⟩ := h.exists_leaf hne
  exact hp ((hs p).trans (leafAt_empty p))

/-- A write of what is already there changes nothing, leaves in its way or not. -/
theorem set_same {t x : Tree κ ℓ} {p : List κ} (hx : Canonical x) (hs : Same x (t.get p)) : Same (t.set p x) t := by
  induction p generalizing t with
  | nil => exact hs
  | cons k p ih =>
    have hk : Same ((t.child k).set p x) (t.child k) := ih hs
    intro q
    rw [set]
    cases q with
    | nil =>
      cases t with
      | leaf l =>
        have hempty : x = empty := hx.eq_empty (by simpa [get_cons] using hs)
        have hchild : (leaf l : Tree κ ℓ).setChild k (((leaf l : Tree κ ℓ).child k).set p x) = leaf l := by
          have : (empty : Tree κ ℓ).set p x = empty := by
            subst hempty
            clear ih hk hs
            induction p with
            | nil => rfl
            | cons j p ih => rw [set, child_empty, ih]; rfl
          rw [child_leaf, this]
          rfl
        rw [hchild]
      | empty => exact leaf?_setChild rfl _ _
      | node cs => exact leaf?_setChild rfl _ _
    | cons j q =>
      rw [leafAt_cons, leafAt_cons]
      by_cases hj : j = k
      · subst hj
        rw [child_setChild_self]
        exact hk q
      · rw [child_setChild_of_ne _ _ hj]

end Operations

/-! ## Equality -/

mutual

/-- The paths of the leaves. -/
def leafPaths : Tree κ ℓ → List (List κ)
  | empty => []
  | leaf _ => [[]]
  | node cs => leafPathsAll cs

def leafPathsAll : List (κ × Tree κ ℓ) → List (List κ)
  | [] => []
  | c :: cs => leafPathsOf c ++ leafPathsAll cs

def leafPathsOf : κ × Tree κ ℓ → List (List κ)
  | (k, t) => t.leafPaths.map (k :: ·)

end

theorem mem_leafPathsAll {c : κ × Tree κ ℓ} {cs : List (κ × Tree κ ℓ)} (h : c ∈ cs) {p : List κ}
    (hp : p ∈ c.2.leafPaths) : c.1 :: p ∈ leafPathsAll cs := by
  induction cs with
  | nil => cases h
  | cons d cs ih =>
    rw [leafPathsAll, List.mem_append]
    rcases List.mem_cons.1 h with rfl | h
    · left
      obtain ⟨k, t⟩ := c
      rw [leafPathsOf]
      exact List.mem_map_of_mem hp
    · exact Or.inr (ih h)

variable [DecidableEq κ]

theorem mem_leafPaths {t : Tree κ ℓ} {p : List κ} (h : t.leafAt p ≠ none) : p ∈ t.leafPaths := by
  induction p generalizing t with
  | nil =>
    cases t with
    | leaf l => simp [leafPaths]
    | empty => exact absurd rfl h
    | node cs => exact absurd rfl h
  | cons k p ih =>
    rw [leafAt_cons] at h
    have hmem := ih h
    cases t with
    | leaf l => simp at h
    | empty => simp at h
    | node cs =>
      rw [leafPaths]
      cases hl : cs.lookup k with
      | none => simp [Tree.child, children, hl] at h
      | some x =>
        obtain ⟨_, _, heq, -⟩ := List.lookup_eq_some_iff.1 hl
        have hx : (k, x) ∈ cs := by simp [heq]
        exact mem_leafPathsAll hx (by simpa [Tree.child, children, hl] using hmem)

variable [DecidableEq ℓ]

/-- The two trees hold the same data. -/
def isEqual (t u : Tree κ ℓ) : Bool := (t.leafPaths ++ u.leafPaths).all fun p => t.leafAt p = u.leafAt p

theorem isEqual_iff {t u : Tree κ ℓ} : t.isEqual u = true ↔ Same t u := by
  simp only [isEqual, List.all_eq_true, decide_eq_true_eq]
  constructor
  · intro h p
    by_cases ht : t.leafAt p = none
    · by_cases hu : u.leafAt p = none
      · rw [ht, hu]
      · exact h p (List.mem_append_right _ (mem_leafPaths hu))
    · exact h p (List.mem_append_left _ (mem_leafPaths ht))
  · exact fun h p _ => h p

end Lib.Tree
