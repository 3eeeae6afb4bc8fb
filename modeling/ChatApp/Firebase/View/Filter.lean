import ChatApp.Firebase.CompoundWrite
import ChatApp.Firebase.Node
import ChatApp.Lib.Returns

/-!
# What changes in a view

A view keeps the data it shows and says what becomes of the children. `FIndexedFilter` replaces a child
(`updateChildIn`) or everything (`updateFullNode`), and `FChildChangeAccumulator` keeps one change for each child, also
when a child is touched several times in one operation.

- `Tracks`: the accumulated changes are what has become of the children since the start;
- `updateChildIn_spec`, `updateFullNode_spec`: the filter keeps them so, and no combination of changes is illegal.
-/

namespace ChatApp

open Lib (Assoc.insertKey Assoc.removeKey Assoc.Sorted Returns)
open Lib.Tree (Same Canonical)

variable {κ ℓ : Type} [LinearOrder κ]

/-! ## Accumulated changes -/

/-- What became of a child. -/
inductive ChildChange (κ ℓ : Type)
  | added (node : Lib.Tree κ ℓ)
  | removed (node : Lib.Tree κ ℓ)
  | changed (node oldNode : Lib.Tree κ ℓ)

/-- The `changeMap` of `FChildChangeAccumulator`. Its `allValues` have no order of their own; the events are sorted. -/
abbrev ChangeMap (κ ℓ : Type) := List (κ × ChildChange κ ℓ)

def trackChildChange (changeMap : ChangeMap κ ℓ) (childKey : κ) (change : ChildChange κ ℓ) :
    Except Fault (ChangeMap κ ℓ) :=
  match changeMap.lookup childKey with
  | none => .ok (Assoc.insertKey childKey change changeMap)
  | some oldChange =>
    match change, oldChange with
    | .added node, .removed oldNode => .ok (Assoc.insertKey childKey (.changed node oldNode) changeMap)
    | .removed _, .added _ => .ok (Assoc.removeKey childKey changeMap)
    | .removed _, .changed _ oldNode => .ok (Assoc.insertKey childKey (.removed oldNode) changeMap)
    | .changed node _, .added _ => .ok (Assoc.insertKey childKey (.added node) changeMap)
    | .changed node _, .changed _ oldNode => .ok (Assoc.insertKey childKey (.changed node oldNode) changeMap)
    | _, _ => .error (.exception "FirebaseDatabaseInternalError" "Illegal combination of changes")

/-- One change, from the child at the start to the child now; `none` stands for no entry. -/
def Describes (old new : Lib.Tree κ ℓ) : Option (ChildChange κ ℓ) → Prop
  | none => Same old new
  | some (.added node) => old = .empty ∧ Same new node ∧ new ≠ .empty
  | some (.removed node) => Same old node ∧ old ≠ .empty ∧ new = .empty
  | some (.changed node oldNode) => Same old oldNode ∧ old ≠ .empty ∧ Same new node ∧ new ≠ .empty

/-- The accumulated changes lead from the children `old` to the children `new`. -/
structure Tracks (old new : κ → Lib.Tree κ ℓ) (changeMap : ChangeMap κ ℓ) : Prop where
  sorted : Assoc.Sorted changeMap
  describes : ∀ k, Describes (old k) (new k) (changeMap.lookup k)

theorem Tracks.refl (old : κ → Lib.Tree κ ℓ) : Tracks old old [] where
  sorted := Lib.Assoc.sorted_nil
  describes k := Same.refl (old k)

theorem ne_empty_of_same {t u : Lib.Tree κ ℓ} (hu : Canonical u) (h : Same t u) (hne : u ≠ .empty) : t ≠ .empty := by
  intro he
  rw [he] at h
  exact hne (hu.eq_empty h.symm)

/-- The children now matter up to what they hold. -/
theorem Describes.congr {old new new' : Lib.Tree κ ℓ} {change : Option (ChildChange κ ℓ)}
    (h : Describes old new change) (hs : Same new' new) (hc : Canonical new) (hc' : Canonical new') :
    Describes old new' change := by
  cases change with
  | none => exact Same.trans h hs.symm
  | some change =>
    cases change with
    | added node => exact ⟨h.1, hs.trans h.2.1, ne_empty_of_same hc hs h.2.2⟩
    | removed node =>
      refine ⟨h.1, h.2.1, hc'.eq_empty ?_⟩
      rw [h.2.2] at hs
      exact hs
    | changed node oldNode => exact ⟨h.1, h.2.1, hs.trans h.2.2.1, ne_empty_of_same hc hs h.2.2.2⟩

section Track

variable {old cur new : κ → Lib.Tree κ ℓ} {changeMap : ChangeMap κ ℓ} {k : κ}

/-- A change of one child, given the child before it. -/
def ChangeFrom (before after : Lib.Tree κ ℓ) : ChildChange κ ℓ → Prop
  | .added node => before = .empty ∧ after = node ∧ node ≠ .empty
  | .removed node => before = node ∧ node ≠ .empty ∧ after = .empty
  | .changed node oldNode => before = oldNode ∧ oldNode ≠ .empty ∧ after = node ∧ node ≠ .empty

/-- **No combination is illegal**, and the new entry goes from the start to now. -/
theorem trackChildChange_spec (h : Tracks old cur changeMap) (hold : Canonical (old k)) (hcur : Canonical (cur k))
    {change : ChildChange κ ℓ} (hc : ChangeFrom (cur k) (new k) change) (hk : ∀ j, j ≠ k → new j = cur j) :
    Returns (trackChildChange changeMap k change) (Tracks old new) := by
  have hother : ∀ {m : ChangeMap κ ℓ}, Assoc.Sorted m → (∀ j, j ≠ k → m.lookup j = changeMap.lookup j) →
      Describes (old k) (new k) (m.lookup k) → Tracks old new m := by
    intro m hsorted hm hself
    refine ⟨hsorted, fun j => ?_⟩
    by_cases hj : j = k
    · subst hj
      exact hself
    · rw [hm j hj, hk j hj]
      exact h.describes j
  have hins : ∀ (c : ChildChange κ ℓ), Describes (old k) (new k) (some c) →
      Tracks old new (Assoc.insertKey k c changeMap) := by
    intro c hd
    apply hother (h.sorted.insertKey k c)
    · intro j hj
      exact Lib.Assoc.lookup_insertKey_of_ne hj c changeMap
    · rw [Lib.Assoc.lookup_insertKey_self]
      exact hd
  have hbefore := h.describes k
  unfold trackChildChange
  cases hl : changeMap.lookup k with
  | none =>
    rw [hl] at hbefore
    refine .ok (hins change ?_)
    cases change with
    | added node =>
      obtain ⟨hb, rfl, hne⟩ := hc
      rw [hb] at hbefore
      exact ⟨hold.eq_empty hbefore, Same.refl _, hne⟩
    | removed node =>
      obtain ⟨rfl, hne, ha⟩ := hc
      exact ⟨hbefore, ne_empty_of_same hcur hbefore hne, ha⟩
    | changed node oldNode =>
      obtain ⟨rfl, hne, rfl, hne'⟩ := hc
      exact ⟨hbefore, ne_empty_of_same hcur hbefore hne, Same.refl _, hne'⟩
  | some oldChange =>
    rw [hl] at hbefore
    cases change with
    | added node =>
      obtain ⟨hb, rfl, hne⟩ := hc
      cases oldChange with
      | added x => exact absurd hb hbefore.2.2
      | removed x => exact .ok (hins _ ⟨hbefore.1, hbefore.2.1, Same.refl _, hne⟩)
      | changed x y => exact absurd hb hbefore.2.2.2
    | removed node =>
      obtain ⟨rfl, hne, ha⟩ := hc
      cases oldChange with
      | added x =>
        refine .ok (hother (h.sorted.removeKey k) ?_ ?_)
        · intro j hj
          exact Lib.Assoc.lookup_removeKey_of_ne hj changeMap
        · rw [Lib.Assoc.lookup_removeKey_self, hbefore.1, ha]
          exact Same.refl _
      | removed x => exact absurd hbefore.2.2 hne
      | changed x y => exact .ok (hins _ ⟨hbefore.1, hbefore.2.1, ha⟩)
    | changed node oldNode =>
      obtain ⟨rfl, hne, rfl, hne'⟩ := hc
      cases oldChange with
      | added x => exact .ok (hins _ ⟨hbefore.1, Same.refl _, hne'⟩)
      | removed x => exact absurd hbefore.2.2 hne
      | changed x y => exact .ok (hins _ ⟨hbefore.1, hbefore.2.1, Same.refl _, hne'⟩)

end Track

/-! ## The filter of a default query -/

namespace FIndexedFilter

variable [DecidableEq ℓ]

/-- `hasChild:`. -/
def hasChild (node : Lib.Tree κ ℓ) (childKey : κ) : Bool := !(node.child childKey).isEmpty

def isLeafNode (node : Lib.Tree κ ℓ) : Bool := node.leaf?.isSome

/-- The change of a replaced child. -/
def trackNewChild (node : Lib.Tree κ ℓ) (childKey : κ) (newChildSnap : Lib.Tree κ ℓ) (changeMap : ChangeMap κ ℓ) :
    Except Fault (ChangeMap κ ℓ) :=
  if newChildSnap.isEmpty then
    if hasChild node childKey then trackChildChange changeMap childKey (.removed (node.child childKey))
    else if isLeafNode node then .ok changeMap
    else .error (.exception "NSInternalInconsistencyException"
      "A child remove without an old child only makes sense on a leaf node.")
  else if (node.child childKey).isEmpty then trackChildChange changeMap childKey (.added newChildSnap)
  else trackChildChange changeMap childKey (.changed newChildSnap (node.child childKey))

/-- Nothing is done when the affected path holds the same, unless the child enters or leaves the view. In a `DEBUG`
build the source then asserts that the whole child is the same; here is the build without. -/
def updateChildIn (node : Lib.Tree κ ℓ) (childKey : κ) (newChildSnap : Lib.Tree κ ℓ) (affectedPath : List κ)
    (optChangeAccumulator : Option (ChangeMap κ ℓ)) : Except Fault (Lib.Tree κ ℓ × Option (ChangeMap κ ℓ)) := do
  let oldChildSnap := node.child childKey
  if (oldChildSnap.get affectedPath).isEqual (newChildSnap.get affectedPath) &&
      oldChildSnap.isEmpty == newChildSnap.isEmpty then
    return (node, optChangeAccumulator)
  else
    let accumulator ← match optChangeAccumulator with
      | none => pure none
      | some changeMap => some <$> trackNewChild node childKey newChildSnap changeMap
    if isLeafNode node && newChildSnap.isEmpty then return (node, accumulator)
    else return (node.setChild childKey newChildSnap, accumulator)

/-- First the children that are gone, then the new and the changed ones. -/
def updateFullNode (oldSnap newSnap : Lib.Tree κ ℓ) (optChangeAccumulator : Option (ChangeMap κ ℓ)) :
    Except Fault (Lib.Tree κ ℓ × Option (ChangeMap κ ℓ)) := do
  match optChangeAccumulator with
  | none => return (newSnap, none)
  | some changeMap =>
    let changeMap ← oldSnap.children.foldlM (fun changeMap c =>
      if hasChild newSnap c.1 then pure changeMap else trackChildChange changeMap c.1 (.removed c.2)) changeMap
    let changeMap ← newSnap.children.foldlM (fun changeMap c =>
      if hasChild oldSnap c.1 then
        if (oldSnap.child c.1).isEqual c.2 then pure changeMap
        else trackChildChange changeMap c.1 (.changed c.2 (oldSnap.child c.1))
      else trackChildChange changeMap c.1 (.added c.2)) changeMap
    return (newSnap, some changeMap)

/-! ### What the filter does -/

/-- The changes of an accumulator, if there is one. -/
def Accumulates (old new : κ → Lib.Tree κ ℓ) : Option (ChangeMap κ ℓ) → Prop
  | none => True
  | some changeMap => Tracks old new changeMap

variable {old : κ → Lib.Tree κ ℓ} {accumulator : Option (ChangeMap κ ℓ)}

/-- The node that `updateChildIn` returns. -/
def replaceChild (node : Lib.Tree κ ℓ) (childKey : κ) (newChildSnap : Lib.Tree κ ℓ) (affectedPath : List κ) :
    Lib.Tree κ ℓ :=
  if ((node.child childKey).get affectedPath).isEqual (newChildSnap.get affectedPath) &&
      (node.child childKey).isEmpty == newChildSnap.isEmpty then node
  else node.setChild childKey newChildSnap

theorem canonical_replaceChild {node newChild : Lib.Tree κ ℓ} (hn : Canonical node) (hc : Canonical newChild) (k : κ)
    (p : List κ) : Canonical (replaceChild node k newChild p) := by
  unfold replaceChild
  split
  · exact hn
  · exact hn.setChild hc k

omit [LinearOrder κ] [DecidableEq ℓ] in
theorem isEmpty_eq_true {t : Lib.Tree κ ℓ} : t.isEmpty = true ↔ t = .empty := by
  cases t <;> simp [Lib.Tree.isEmpty]

omit [DecidableEq ℓ] in
theorem trackNewChild_spec {node newChild : Lib.Tree κ ℓ} {k : κ} {changeMap : ChangeMap κ ℓ}
    (h : Tracks old node.child changeMap) (hold : Canonical (old k)) (hn : Canonical node)
    (hne : newChild = .empty → node.child k ≠ .empty) :
    Returns (trackNewChild node k newChild changeMap) (Tracks old (node.setChild k newChild).child) := by
  have hother : ∀ j, j ≠ k → (node.setChild k newChild).child j = node.child j := fun j hj =>
    Lib.Tree.child_setChild_of_ne node newChild hj
  have hself : (node.setChild k newChild).child k = newChild := Lib.Tree.child_setChild_self node k newChild
  unfold trackNewChild
  apply Returns.ite
  · intro hempty
    rw [isEmpty_eq_true] at hempty
    have hchild : hasChild node k = true := by
      rw [hasChild, Lib.Tree.isEmpty_eq_false (hne hempty)]
      rfl
    rw [if_pos hchild]
    exact trackChildChange_spec h hold (hn.child k) ⟨rfl, hne hempty, by rw [hself, hempty]⟩ hother
  · intro hnew
    have hnew' : newChild ≠ .empty := fun he => hnew (isEmpty_eq_true.2 he)
    apply Returns.ite
    · intro hold'
      exact trackChildChange_spec h hold (hn.child k) ⟨isEmpty_eq_true.1 hold', hself, hnew'⟩ hother
    · intro hold'
      have hne' : node.child k ≠ .empty := fun he => hold' (isEmpty_eq_true.2 he)
      exact trackChildChange_spec h hold (hn.child k) ⟨rfl, hne', hself, hnew'⟩ hother

omit [DecidableEq ℓ] in
/-- A leaf stays when an empty child is put into it. -/
theorem setChild_of_isLeafNode {node newChild : Lib.Tree κ ℓ} (h : (isLeafNode node && newChild.isEmpty) = true)
    (k : κ) :
    node.setChild k newChild = node := by
  rw [Bool.and_eq_true, isEmpty_eq_true] at h
  rw [h.2]
  cases node with
  | leaf l => rfl
  | empty => cases h.1
  | node cs => cases h.1

/-- **Replacing a child**: the changes go on leading from the start to the node that is returned. -/
theorem updateChildIn_spec {node newChild : Lib.Tree κ ℓ} {k : κ} (h : Accumulates old node.child accumulator)
    (hold : Canonical (old k)) (hn : Canonical node) (p : List κ) :
    Returns (updateChildIn node k newChild p accumulator) fun r => r.1 = replaceChild node k newChild p ∧
      Accumulates old r.1.child r.2 ∧ r.2.isSome = accumulator.isSome := by
  unfold updateChildIn replaceChild
  dsimp only
  split
  · exact .pure ⟨rfl, h, rfl⟩
  · rename_i hdiff
    have hne : newChild = .empty → node.child k ≠ .empty := by
      intro hnew hchild
      apply hdiff
      rw [hnew, hchild, Bool.and_eq_true, Lib.Tree.isEqual_iff]
      exact ⟨Same.refl _, rfl⟩
    have hlast : ∀ acc : Option (ChangeMap κ ℓ), Accumulates old (node.setChild k newChild).child acc →
        acc.isSome = accumulator.isSome →
        Returns (if (isLeafNode node && newChild.isEmpty) = true then pure (node, acc)
          else (pure (node.setChild k newChild, acc) : Except Fault _)) fun r =>
            r.1 = node.setChild k newChild ∧ Accumulates old r.1.child r.2 ∧ r.2.isSome = accumulator.isSome := by
      intro acc hacc hsome
      apply Returns.ite
      · intro hleaf
        have hset := setChild_of_isLeafNode hleaf k
        rw [hset] at hacc ⊢
        exact .pure ⟨rfl, hacc, hsome⟩
      · intro hleaf
        exact .pure ⟨rfl, hacc, hsome⟩
    cases accumulator with
    | none => exact hlast none trivial rfl
    | some changeMap =>
      have htrack := trackNewChild_spec h hold hn hne
      obtain ⟨m, hm, ht⟩ := htrack
      simp only [hm]
      exact hlast (some m) ht rfl

/-- The children after those in `ks` have been replaced. -/
def mixed (ks : List κ) (before after : κ → Lib.Tree κ ℓ) (k : κ) : Lib.Tree κ ℓ :=
  if ks.contains k then after k else before k

omit [DecidableEq ℓ] in
theorem mixed_concat_self (ks : List κ) (k : κ) (before after : κ → Lib.Tree κ ℓ) :
    mixed (ks ++ [k]) before after k = after k := by
  simp [mixed]

omit [DecidableEq ℓ] in
theorem mixed_concat_of_ne (ks : List κ) {j k : κ} (h : j ≠ k) (before after : κ → Lib.Tree κ ℓ) :
    mixed (ks ++ [k]) before after j = mixed ks before after j := by
  simp [mixed, h]

omit [DecidableEq ℓ] in
theorem mixed_of_notMem {ks : List κ} {k : κ} (h : k ∉ ks) (before after : κ → Lib.Tree κ ℓ) :
    mixed ks before after k = before k := by
  simp [mixed, h]

omit [LinearOrder κ] [DecidableEq ℓ] in
/-- In a loop over the children of a node, a child comes with its key for the first time. -/
theorem notMem_of_concat {t : Lib.Tree κ ℓ} (ht : Canonical t) {pre : List (κ × Lib.Tree κ ℓ)} {c : κ × Lib.Tree κ ℓ}
    (h : pre ++ [c] <+: t.children) : c.1 ∉ pre.map Prod.fst ∧ c ∈ t.children := by
  obtain ⟨post, hpost⟩ := h
  have hnd := ht.keys_nodup
  rw [← hpost, List.map_append, List.map_append, List.append_assoc, List.nodup_append] at hnd
  refine ⟨fun hm => hnd.2.2 c.1 hm c.1 (by simp) rfl, ?_⟩
  rw [← hpost]
  simp

/-- The old children that the new node still has. -/
def kept (oldSnap newSnap : Lib.Tree κ ℓ) (k : κ) : Lib.Tree κ ℓ :=
  if hasChild newSnap k then oldSnap.child k else .empty

section Full

variable {oldSnap newSnap : Lib.Tree κ ℓ} {changeMap : ChangeMap κ ℓ}

omit [DecidableEq ℓ] in
/-- The loop over the children that are gone. -/
theorem trackRemoved_spec (h : Tracks old oldSnap.child changeMap) (hold : ∀ k, Canonical (old k))
    (ho : Canonical oldSnap) : Returns (oldSnap.children.foldlM (fun changeMap c =>
      if hasChild newSnap c.1 then pure changeMap else trackChildChange changeMap c.1 (.removed c.2)) changeMap)
      (Tracks old (kept oldSnap newSnap)) := by
  have hend : mixed (oldSnap.children.map Prod.fst) oldSnap.child (kept oldSnap newSnap) = kept oldSnap newSnap := by
    funext k
    unfold mixed
    split
    · rfl
    · rename_i hk
      rw [List.contains_iff_mem] at hk
      rw [kept, Lib.Tree.child_eq_empty hk, ite_self]
  rw [← hend]
  refine Lib.returns_foldlM (I := fun pre => Tracks old (mixed (pre.map Prod.fst) oldSnap.child (kept oldSnap newSnap)))
    h ?_
  intro pre c m hpre hm
  obtain ⟨hnew, hmem⟩ := notMem_of_concat ho hpre
  obtain ⟨hchild, hne⟩ := ho.child_of_mem hmem
  rw [List.map_append, List.map_cons, List.map_nil]
  have hcur : mixed (pre.map Prod.fst) oldSnap.child (kept oldSnap newSnap) c.1 = c.2 := by
    rw [mixed_of_notMem hnew, hchild]
  apply Returns.ite
  · intro hhas
    -- the child stays, and so do the changes
    refine .pure ⟨hm.sorted, fun k => ?_⟩
    by_cases hk : k = c.1
    · subst hk
      have hkept : kept oldSnap newSnap c.1 = c.2 := by rw [kept, if_pos hhas, hchild]
      have := hm.describes c.1
      rw [hcur] at this
      rwa [mixed_concat_self, hkept]
    · rw [mixed_concat_of_ne _ hk]
      exact hm.describes k
  · intro hhas
    refine trackChildChange_spec hm (hold c.1) ?_ ⟨hcur, hne, ?_⟩ ?_
    · rw [hcur, ← hchild]
      exact ho.child c.1
    · rw [mixed_concat_self, kept, if_neg hhas]
    · intro j hj
      exact mixed_concat_of_ne _ hj _ _

/-- The loop over the children that are new or may have changed. -/
theorem trackNew_spec (h : Tracks old (kept oldSnap newSnap) changeMap) (hold : ∀ k, Canonical (old k))
    (ho : Canonical oldSnap) (hn : Canonical newSnap) : Returns (newSnap.children.foldlM (fun changeMap c =>
      if hasChild oldSnap c.1 then
        if (oldSnap.child c.1).isEqual c.2 then pure changeMap
        else trackChildChange changeMap c.1 (.changed c.2 (oldSnap.child c.1))
      else trackChildChange changeMap c.1 (.added c.2)) changeMap) (Tracks old newSnap.child) := by
  have hend : mixed (newSnap.children.map Prod.fst) (kept oldSnap newSnap) newSnap.child = newSnap.child := by
    funext k
    unfold mixed
    split
    · rfl
    · rename_i hk
      rw [List.contains_iff_mem] at hk
      have hempty := Lib.Tree.child_eq_empty hk
      rw [hempty, kept, hasChild, hempty]
      rfl
  rw [← hend]
  refine Lib.returns_foldlM (I := fun pre => Tracks old (mixed (pre.map Prod.fst) (kept oldSnap newSnap) newSnap.child))
    h ?_
  intro pre c m hpre hm
  obtain ⟨hnew, hmem⟩ := notMem_of_concat hn hpre
  obtain ⟨hchild, hne⟩ := hn.child_of_mem hmem
  rw [List.map_append, List.map_cons, List.map_nil]
  have hhas : hasChild newSnap c.1 = true := by
    rw [hasChild, hchild, Lib.Tree.isEmpty_eq_false hne]
    rfl
  have hcur : mixed (pre.map Prod.fst) (kept oldSnap newSnap) newSnap.child c.1 = oldSnap.child c.1 := by
    rw [mixed_of_notMem hnew, kept, if_pos hhas]
  have hcan : Canonical (mixed (pre.map Prod.fst) (kept oldSnap newSnap) newSnap.child c.1) := by
    rw [hcur]
    exact ho.child c.1
  have hother : ∀ j, j ≠ c.1 → mixed (pre.map Prod.fst ++ [c.1]) (kept oldSnap newSnap) newSnap.child j =
      mixed (pre.map Prod.fst) (kept oldSnap newSnap) newSnap.child j := fun j hj => mixed_concat_of_ne _ hj _ _
  have hself : mixed (pre.map Prod.fst ++ [c.1]) (kept oldSnap newSnap) newSnap.child c.1 = c.2 := by
    rw [mixed_concat_self, hchild]
  apply Returns.ite
  · intro hold'
    have hne' : oldSnap.child c.1 ≠ .empty := by
      intro he
      rw [hasChild, he] at hold'
      cases hold'
    apply Returns.ite
    · intro hequal
      refine .pure ⟨hm.sorted, fun k => ?_⟩
      by_cases hk : k = c.1
      · subst hk
        refine (hm.describes c.1).congr ?_ hcan ?_
        · rw [hself, hcur]
          exact (Lib.Tree.isEqual_iff.1 hequal).symm
        · rw [hself, ← hchild]
          exact hn.child c.1
      · rw [hother k hk]
        exact hm.describes k
    · intro _
      exact trackChildChange_spec hm (hold c.1) hcan ⟨hcur, hne', hself, hne⟩ hother
  · intro hold'
    have hempty : oldSnap.child c.1 = .empty := by
      rw [hasChild, Bool.not_eq_true, Bool.not_eq_false', isEmpty_eq_true] at hold'
      exact hold'
    exact trackChildChange_spec hm (hold c.1) hcan ⟨by rw [hcur, hempty], hself, hne⟩ hother

/-- **Replacing everything.** -/
theorem updateFullNode_spec (h : Accumulates old oldSnap.child accumulator) (hold : ∀ k, Canonical (old k))
    (ho : Canonical oldSnap) (hn : Canonical newSnap) :
    Returns (updateFullNode oldSnap newSnap accumulator) fun r => r.1 = newSnap ∧
      Accumulates old r.1.child r.2 ∧ r.2.isSome = accumulator.isSome := by
  unfold updateFullNode
  cases accumulator with
  | none => exact .pure ⟨rfl, trivial, rfl⟩
  | some changeMap =>
    apply (trackRemoved_spec h hold ho).bind
    intro m₁ hm₁
    apply (trackNew_spec hm₁ hold ho hn).bind
    intro m₂ hm₂
    exact .pure ⟨rfl, hm₂, rfl⟩

end Full

end FIndexedFilter

end ChatApp
