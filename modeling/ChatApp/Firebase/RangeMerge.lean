import ChatApp.Firebase.UpdatePaths
import ChatApp.Firebase.View.Filter

/-!
# Merging a range of leaves

When the client tells the server the hashes of what it has, the server sends only the ranges of leaves that differ
(`FRangeMerge`): the data between two paths, in the order of paths, the first excluded and the last included.
`updateRangeInNode` replaces what is in the range and goes down along the two ends only. The model has no priorities:
the step for `.priority` after the children of a partial update is left out. Its keys are `Name`s, for which the order
of paths and equality of keys agree.

- `updateRangeInNode_spec`, `applyToNode_spec`: a leaf of the result is the leaf of the update inside the range and the
  old one outside, when these leaves do not lie below one another and the old node has no leaf above the end; the
  assertions hold, and going down ends.
-/

namespace ChatApp

open Lib (Returns)
open Lib.Tree (Canonical Same)
open FIndexedFilter (isLeafNode)

/-- `FRangeMerge`. -/
structure RangeMerge (ℓ : Type) where
  optExclusiveStart : Option (List Name)
  optInclusiveEnd : Option (List Name)
  updates : Lib.Tree Name ℓ

namespace RangeMerge

variable {ℓ : Type}

def startComparison (m : RangeMerge ℓ) (currentPath : List Name) : Ordering :=
  match m.optExclusiveStart with
  | none => .gt
  | some start => FPath.compare currentPath start

def endComparison (m : RangeMerge ℓ) (currentPath : List Name) : Ordering :=
  match m.optInclusiveEnd with
  | none => .lt
  | some finish => FPath.compare currentPath finish

def startInNode (m : RangeMerge ℓ) (currentPath : List Name) : Bool :=
  m.optExclusiveStart.any fun start => currentPath.isPrefixOf start

def endInNode (m : RangeMerge ℓ) (currentPath : List Name) : Bool :=
  m.optInclusiveEnd.any fun finish => currentPath.isPrefixOf finish

/-- The keys of both nodes. The source has them in a set and goes through it in an order of Foundation's; here it is
that of the nodes. -/
def allChildren (node updates : Lib.Tree Name ℓ) : List Name :=
  let keys := node.children.map Prod.fst
  keys ++ (updates.children.map Prod.fst).filter fun key => !keys.contains key

/-- The partial update of a node. Setting a child that has not changed changes nothing, so that there is no test for
it. -/
def updateChildren (updateChild : Name → Lib.Tree Name ℓ → Lib.Tree Name ℓ → Except Fault (Lib.Tree Name ℓ))
    (node updates : Lib.Tree Name ℓ) : Except Fault (Lib.Tree Name ℓ) :=
  (allChildren node updates).foldlM (fun newNode key => do
    let updatedChild ← updateChild key (node.child key) (updates.child key)
    return newNode.setChild key updatedChild) node

/-- `updateRangeInNode:node:updates:`, with the call for a child. -/
def updateRange (m : RangeMerge ℓ) (currentPath : List Name)
    (updateChild : Name → Lib.Tree Name ℓ → Lib.Tree Name ℓ → Except Fault (Lib.Tree Name ℓ))
    (node updates : Lib.Tree Name ℓ) : Except Fault (Lib.Tree Name ℓ) :=
  if m.startComparison currentPath = .gt ∧ m.endComparison currentPath = .lt ∧ m.endInNode currentPath = false then
    .ok updates
  else if m.startComparison currentPath = .gt ∧ m.endInNode currentPath = true ∧ isLeafNode updates = true then
    .ok updates
  else if m.startComparison currentPath = .gt ∧ m.endComparison currentPath = .eq then
    if m.endInNode currentPath = false then .error (WriteTree.assertion "End not in node")
    else if isLeafNode updates then
      .error (WriteTree.assertion "Found leaf node update, this case should have been handled above.")
    else if isLeafNode node then .ok .empty
    else .ok node
  else if m.startInNode currentPath || m.endInNode currentPath then updateChildren updateChild node updates
  else if m.endComparison currentPath = .gt ∨ m.startComparison currentPath ≠ .gt then .ok node
  else .error (WriteTree.assertion "Invalid range for update")

/-- At most `levels` levels below the path. -/
def updateRangeInNode (m : RangeMerge ℓ) : Nat → List Name → Lib.Tree Name ℓ → Lib.Tree Name ℓ →
    Except Fault (Lib.Tree Name ℓ)
  | 0, currentPath, node, updates => m.updateRange currentPath (fun _ _ _ => .error .indexOutOfRange) node updates
  | levels + 1, currentPath, node, updates =>
    m.updateRange currentPath (fun key => updateRangeInNode m levels (currentPath ++ [key])) node updates

/-- No end of the range is longer. -/
def levels (m : RangeMerge ℓ) : Nat :=
  max (m.optExclusiveStart.getD []).length (m.optInclusiveEnd.getD []).length + 1

def applyToNode (m : RangeMerge ℓ) (node : Lib.Tree Name ℓ) : Except Fault (Lib.Tree Name ℓ) :=
  m.updateRangeInNode m.levels [] node m.updates

/-! ## Ranges -/

/-- After the start, and not after the end. -/
def inRange (m : RangeMerge ℓ) (path : List Name) : Bool :=
  m.startComparison path = .gt && m.endComparison path ≠ .gt

variable {m : RangeMerge ℓ} {p : List Name}

theorem startComparison_eq_gt : m.startComparison p = .gt ↔ ∀ s, m.optExclusiveStart = some s → s < p := by
  unfold startComparison
  cases m.optExclusiveStart with
  | none => simp
  | some s => simpa using (FPath.compare_compares p s).eq_gt

theorem endComparison_ne_gt : m.endComparison p ≠ .gt ↔ ∀ e, m.optInclusiveEnd = some e → p ≤ e := by
  unfold endComparison
  cases m.optInclusiveEnd with
  | none => simp
  | some e => simpa using (FPath.compare_compares p e).ne_gt

theorem endComparison_eq_lt : m.endComparison p = .lt ↔ ∀ e, m.optInclusiveEnd = some e → p < e := by
  unfold endComparison
  cases m.optInclusiveEnd with
  | none => simp
  | some e => simpa using (FPath.compare_compares p e).eq_lt

theorem endComparison_eq_eq : m.endComparison p = .eq ↔ m.optInclusiveEnd = some p := by
  unfold endComparison
  cases m.optInclusiveEnd with
  | none => simp
  | some e => simpa [eq_comm] using (FPath.compare_compares p e).eq_eq

theorem startInNode_iff : m.startInNode p = true ↔ ∃ s, m.optExclusiveStart = some s ∧ p <+: s := by
  unfold startInNode
  cases m.optExclusiveStart with
  | none => simp
  | some s => simp

theorem endInNode_iff : m.endInNode p = true ↔ ∃ e, m.optInclusiveEnd = some e ∧ p <+: e := by
  unfold endInNode
  cases m.optInclusiveEnd with
  | none => simp
  | some e => simp

theorem inRange_iff : m.inRange p = true ↔
    (∀ s, m.optExclusiveStart = some s → s < p) ∧ ∀ e, m.optInclusiveEnd = some e → p ≤ e := by
  rw [inRange, Bool.and_eq_true, decide_eq_true_eq, decide_eq_true_eq, startComparison_eq_gt, endComparison_ne_gt]

/-- What is not above a path stays on its side of it, with all that is below. -/
theorem append_lt_of_lt {e : List Name} (h : p < e) (hne : ¬p <+: e) (q : List Name) : p ++ q < e := by
  by_contra hle
  exact hne (prefix_of_between (List.prefix_append p q) h.le (not_lt.1 hle))

/-- A node of which all paths are in the range. -/
theorem inRange_below (hs : m.startComparison p = .gt) (he : m.endComparison p = .lt) (hin : m.endInNode p = false)
    (q : List Name) : m.inRange (p ++ q) = true := by
  rw [startComparison_eq_gt] at hs
  rw [endComparison_eq_lt] at he
  refine inRange_iff.2 ⟨fun s hstart => (hs s hstart).trans_le (le_of_above (List.prefix_append p q)),
    fun e hend => (append_lt_of_lt (he e hend) (fun hpe => ?_) q).le⟩
  rw [endInNode_iff.2 ⟨e, hend, hpe⟩] at hin
  cases hin

/-- A path above the end is in the range when it is after the start. -/
theorem inRange_of_endInNode (hs : m.startComparison p = .gt) (hin : m.endInNode p = true) : m.inRange p = true := by
  obtain ⟨e, hend, hpe⟩ := endInNode_iff.1 hin
  refine inRange_iff.2 ⟨startComparison_eq_gt.1 hs, fun e' hend' => ?_⟩
  rw [hend, Option.some.injEq] at hend'
  rw [← hend']
  exact le_of_above hpe

/-- Nothing below the end is in the range. -/
theorem inRange_below_end (hend : m.optInclusiveEnd = some p) {q : List Name} (hq : q ≠ []) :
    m.inRange (p ++ q) = false := by
  rw [Bool.eq_false_iff]
  intro hin
  have heq : p ++ q = p := le_antisymm ((inRange_iff.1 hin).2 p hend) (le_of_above (List.prefix_append p q))
  exact hq (by simpa using heq)

/-- A node of which no path is in the range: it is before the start or after the end. -/
theorem inRange_apart (hs : m.startInNode p = false) (he : m.endInNode p = false)
    (hout : ¬(m.startComparison p = .gt ∧ m.endComparison p = .lt ∧ m.endInNode p = false)) :
    (m.endComparison p = .gt ∨ m.startComparison p ≠ .gt) ∧ ∀ q, m.inRange (p ++ q) = false := by
  by_cases hstart : m.startComparison p = .gt
  · have hend : m.endComparison p = .gt := by
      cases hc : m.endComparison p with
      | lt => exact absurd ⟨hstart, hc, he⟩ hout
      | eq =>
        rw [endInNode_iff.2 ⟨p, endComparison_eq_eq.1 hc, List.prefix_rfl⟩] at he
        cases he
      | gt => rfl
    refine ⟨Or.inl hend, fun q => Bool.eq_false_iff.2 fun hin => ?_⟩
    refine absurd hend (endComparison_ne_gt.2 fun e hsome => ?_)
    exact (le_of_above (List.prefix_append p q)).trans ((inRange_iff.1 hin).2 e hsome)
  · refine ⟨Or.inr hstart, fun q => Bool.eq_false_iff.2 fun hin => hstart (startComparison_eq_gt.2 fun s hsome => ?_)⟩
    by_contra hle
    rcases (not_lt.1 hle).lt_or_eq with hlt | heq
    · have hno : ¬p <+: s := fun hps => by
        rw [startInNode_iff.2 ⟨s, hsome, hps⟩] at hs
        cases hs
      exact absurd ((inRange_iff.1 hin).1 s hsome) (append_lt_of_lt hlt hno q).not_gt
    · rw [startInNode_iff.2 ⟨s, hsome, heq ▸ List.prefix_rfl⟩] at hs
      cases hs

/-- Above an end of the range, a path in the range is above the last one. -/
theorem endInNode_of_inRange (hin : m.startInNode p = true ∨ m.endInNode p = true) (hr : m.inRange p = true) :
    m.startComparison p = .gt ∧ m.endInNode p = true := by
  refine ⟨startComparison_eq_gt.2 (inRange_iff.1 hr).1, hin.resolve_left fun hs => ?_⟩
  obtain ⟨s, hsome, hps⟩ := startInNode_iff.1 hs
  exact absurd ((inRange_iff.1 hr).1 s hsome) (le_of_above hps).not_gt

/-! ## What the merge leaves -/

/-- The leaf that belongs at a path below `p`. -/
def mergedLeaf (m : RangeMerge ℓ) (p : List Name) (node updates : Lib.Tree Name ℓ) (q : List Name) : Option ℓ :=
  if m.inRange (p ++ q) then updates.leafAt q else node.leafAt q

/-- No leaf below another. -/
def LeavesApart (leaf : List Name → Option ℓ) : Prop := ∀ q r, leaf q ≠ none → r ≠ [] → leaf (q ++ r) = none

/-- The old node has no leaf above the end of the range. -/
def ClearAboveEnd (m : RangeMerge ℓ) (p : List Name) (node : Lib.Tree Name ℓ) : Prop :=
  ∀ e, m.optInclusiveEnd = some e → ∀ q, p ++ q <+: e → p ++ q ≠ e → node.leafAt q = none

variable {node updates : Lib.Tree Name ℓ}

theorem mergedLeaf_cons (k : Name) (q : List Name) : m.mergedLeaf p node updates (k :: q) =
    m.mergedLeaf (p ++ [k]) (node.child k) (updates.child k) q := by
  simp only [mergedLeaf, List.append_assoc, List.singleton_append, Lib.Tree.leafAt_cons]

theorem LeavesApart.child (h : LeavesApart (m.mergedLeaf p node updates)) (k : Name) :
    LeavesApart (m.mergedLeaf (p ++ [k]) (node.child k) (updates.child k)) := by
  intro q r hq hr
  rw [← mergedLeaf_cons] at hq ⊢
  exact h (k :: q) r hq hr

theorem ClearAboveEnd.child (h : m.ClearAboveEnd p node) (k : Name) : m.ClearAboveEnd (p ++ [k]) (node.child k) := by
  intro e he q hq hne
  rw [List.append_assoc, List.singleton_append] at hq hne
  exact h e he (k :: q) hq hne

theorem leafAt_of_isLeafNode {t : Lib.Tree Name ℓ} (h : isLeafNode t = true) {q : List Name} (hq : q ≠ []) :
    t.leafAt q = none := by
  obtain ⟨l, hl⟩ := Option.isSome_iff_exists.1 h
  rw [Lib.Tree.eq_leaf hl]
  cases q with
  | nil => exact absurd rfl hq
  | cons k q => rw [Lib.Tree.leafAt_cons, Lib.Tree.child_leaf, Lib.Tree.leafAt_empty]

theorem leafAt_nil_of_not_isLeafNode {t : Lib.Tree Name ℓ} (h : ¬isLeafNode t = true) : t.leafAt [] = none := by
  rw [isLeafNode, Option.not_isSome_iff_eq_none] at h
  exact h

theorem mergedLeaf_eq_none_of_notMem {k : Name} (h : k ∉ allChildren node updates) (q : List Name) :
    m.mergedLeaf p node updates (k :: q) = none ∧ node.child k = .empty := by
  simp only [allChildren, List.mem_append, List.mem_filter, not_or, not_and] at h
  obtain ⟨hnode, hupdates⟩ := h
  have hn : node.child k = .empty := Lib.Tree.child_eq_empty hnode
  have hu : updates.child k = .empty := by
    refine Lib.Tree.child_eq_empty fun hmem => hupdates hmem ?_
    simpa using hnode
  rw [mergedLeaf, Lib.Tree.leafAt_cons, Lib.Tree.leafAt_cons, hn, hu, ite_self, Lib.Tree.leafAt_empty]
  exact ⟨rfl, rfl⟩

/-- The result at a node: the leaves that belong there. -/
def Merged (m : RangeMerge ℓ) (p : List Name) (node updates r : Lib.Tree Name ℓ) : Prop :=
  Canonical r ∧ ∀ q, r.leafAt q = m.mergedLeaf p node updates q

variable {updateChild : Name → Lib.Tree Name ℓ → Lib.Tree Name ℓ → Except Fault (Lib.Tree Name ℓ)}

/-- The partial update of a node without a leaf at its top. -/
theorem updateChildren_spec (hn : Canonical node) (hleaf : node.leaf? = none)
    (hchild : ∀ k, Returns (updateChild k (node.child k) (updates.child k))
      (m.Merged (p ++ [k]) (node.child k) (updates.child k))) :
    Returns (updateChildren updateChild node updates) fun r =>
      Canonical r ∧ r.leaf? = none ∧ ∀ k q, r.leafAt (k :: q) = m.mergedLeaf p node updates (k :: q) := by
  have hloop : Returns (updateChildren updateChild node updates) fun r => Canonical r ∧ r.leaf? = none ∧
      (∀ k ∈ allChildren node updates, ∀ q, r.leafAt (k :: q) = m.mergedLeaf p node updates (k :: q)) ∧
      ∀ k, k ∉ allChildren node updates → r.child k = node.child k := by
    refine Lib.returns_foldlM (I := fun pre newNode => Canonical newNode ∧ newNode.leaf? = none ∧
      (∀ k ∈ pre, ∀ q, newNode.leafAt (k :: q) = m.mergedLeaf p node updates (k :: q)) ∧
      ∀ k, k ∉ pre → newNode.child k = node.child k) ⟨hn, hleaf, by simp, fun _ _ => rfl⟩ ?_
    intro pre k newNode _ hi
    obtain ⟨hcan, hroot, hdone, hrest⟩ := hi
    apply (hchild k).bind
    rintro x ⟨hx, hxleaf⟩
    refine .pure ⟨hcan.setChild hx k, Lib.Tree.leaf?_setChild hroot k x, fun j hj q => ?_, fun j hj => ?_⟩
    · by_cases hjk : j = k
      · subst hjk
        rw [Lib.Tree.leafAt_cons, Lib.Tree.child_setChild_self, hxleaf, mergedLeaf_cons]
      · have hpre : j ∈ pre := by simpa [hjk] using hj
        rw [Lib.Tree.leafAt_cons, Lib.Tree.child_setChild_of_ne _ _ hjk, ← Lib.Tree.leafAt_cons]
        exact hdone j hpre q
    · rw [List.mem_append, not_or, List.mem_singleton] at hj
      rw [Lib.Tree.child_setChild_of_ne _ _ hj.2]
      exact hrest j hj.1
  refine hloop.mono fun r hr => ?_
  obtain ⟨hcan, hroot, hdone, hrest⟩ := hr
  refine ⟨hcan, hroot, fun k q => ?_⟩
  by_cases hk : k ∈ allChildren node updates
  · exact hdone k hk q
  · obtain ⟨hnone, hempty⟩ := mergedLeaf_eq_none_of_notMem (m := m) (p := p) hk q
    rw [hnone, Lib.Tree.leafAt_cons, hrest k hk, hempty, Lib.Tree.leafAt_empty]

/-- The partial update of a leaf that stays. -/
theorem updateChildren_leaf {l : ℓ} (hnone : ∀ k q, m.mergedLeaf p (.leaf l) updates (k :: q) = none)
    (hchild : ∀ k, Returns (updateChild k .empty (updates.child k)) (m.Merged (p ++ [k]) .empty (updates.child k))) :
    Returns (updateChildren updateChild (.leaf l) updates) (· = .leaf l) := by
  refine Lib.returns_foldlM (I := fun _ newNode => newNode = Lib.Tree.leaf l) rfl ?_
  rintro pre k _ _ rfl
  rw [Lib.Tree.child_leaf]
  apply (hchild k).bind
  rintro x ⟨hx, hxleaf⟩
  have hempty : x = .empty := by
    refine hx.eq_empty fun q => ?_
    have := hnone k q
    rw [mergedLeaf_cons, Lib.Tree.child_leaf] at this
    rw [hxleaf, this, Lib.Tree.leafAt_empty]
  subst hempty
  exact .pure rfl

/-! ### The branches of an update -/

/-- A node of which all is in the range. -/
theorem merged_below (hu : Canonical updates) (hs : m.startComparison p = .gt) (he : m.endComparison p = .lt)
    (hin : m.endInNode p = false) : m.Merged p node updates updates := by
  refine ⟨hu, fun q => ?_⟩
  rw [mergedLeaf, inRange_below hs he hin q, if_pos rfl]

/-- At a path in the range the update says what belongs there. -/
theorem mergedLeaf_nil_of_endInNode (hs : m.startComparison p = .gt) (hin : m.endInNode p = true) :
    m.mergedLeaf p node updates [] = updates.leafAt [] := by
  rw [mergedLeaf, List.append_nil, inRange_of_endInNode hs hin, if_pos rfl]

/-- A leaf above the end: nothing else can be there. -/
theorem merged_leaf_above_end (hu : Canonical updates) (hfree : LeavesApart (m.mergedLeaf p node updates))
    (hs : m.startComparison p = .gt) (hin : m.endInNode p = true) (hleaf : isLeafNode updates = true) :
    m.Merged p node updates updates := by
  have hroot : m.mergedLeaf p node updates [] = updates.leafAt [] := mergedLeaf_nil_of_endInNode hs hin
  refine ⟨hu, fun q => ?_⟩
  cases q with
  | nil => exact hroot.symm
  | cons k q =>
    rw [leafAt_of_isLeafNode hleaf (by simp)]
    refine (hfree [] (k :: q) ?_ (by simp)).symm
    rw [hroot]
    exact Option.isSome_iff_ne_none.1 hleaf

/-- At the end itself the old leaf goes, and what is below it stays. -/
theorem merged_at_end (hn : Canonical node) (hs : m.startComparison p = .gt) (hend : m.optInclusiveEnd = some p)
    (hleaf : ¬isLeafNode updates = true) :
    m.Merged p node updates (if isLeafNode node then .empty else node) := by
  have hroot : m.mergedLeaf p node updates [] = none := by
    rw [mergedLeaf_nil_of_endInNode hs (endInNode_iff.2 ⟨p, hend, List.prefix_rfl⟩)]
    exact leafAt_nil_of_not_isLeafNode hleaf
  have hbelow : ∀ k q, m.mergedLeaf p node updates (k :: q) = node.leafAt (k :: q) := by
    intro k q
    rw [mergedLeaf, inRange_below_end hend (by simp), if_neg Bool.false_ne_true]
  split
  · rename_i hnode
    refine ⟨.empty, fun q => ?_⟩
    rw [Lib.Tree.leafAt_empty]
    cases q with
    | nil => exact hroot.symm
    | cons k q => rw [hbelow, leafAt_of_isLeafNode hnode (by simp)]
  · rename_i hnode
    refine ⟨hn, fun q => ?_⟩
    cases q with
    | nil => rw [hroot, leafAt_nil_of_not_isLeafNode hnode]
    | cons k q => rw [hbelow]

/-- No leaf is at a path in the range that is above the end and not the end itself. -/
theorem leafAt_nil_above_end (hclear : m.ClearAboveEnd p node)
    (hends : m.startInNode p = true ∨ m.endInNode p = true)
    (hnoleaf : ¬(m.startComparison p = .gt ∧ m.endInNode p = true ∧ isLeafNode updates = true))
    (hnotend : ¬(m.startComparison p = .gt ∧ m.endComparison p = .eq)) (hr : m.inRange p = true) :
    updates.leafAt [] = none ∧ node.leafAt [] = none := by
  obtain ⟨hs, hin⟩ := endInNode_of_inRange hends hr
  obtain ⟨e, hend, hpe⟩ := endInNode_iff.1 hin
  refine ⟨leafAt_nil_of_not_isLeafNode fun h => hnoleaf ⟨hs, hin, h⟩, ?_⟩
  refine hclear e hend [] (by rwa [List.append_nil]) ?_
  rintro rfl
  rw [List.append_nil] at hend
  exact hnotend ⟨hs, endComparison_eq_eq.2 hend⟩

/-- The partial update of a node, with the children's calls. -/
theorem returns_updateChildren (hn : Canonical node) (hfree : LeavesApart (m.mergedLeaf p node updates))
    (hroot : m.inRange p = true → updates.leafAt [] = none ∧ node.leafAt [] = none)
    (hchild : ∀ k, Returns (updateChild k (node.child k) (updates.child k))
      (m.Merged (p ++ [k]) (node.child k) (updates.child k))) :
    Returns (updateChildren updateChild node updates) (m.Merged p node updates) := by
  cases hl : node.leaf? with
  | none =>
    refine (updateChildren_spec hn hl hchild).mono fun r hr => ⟨hr.1, fun q => ?_⟩
    cases q with
    | nil =>
      rw [mergedLeaf, List.append_nil]
      change r.leaf? = _
      rw [hr.2.1]
      split
      · rename_i hin
        exact (hroot hin).1.symm
      · exact hl.symm
    | cons k q => exact hr.2.2 k q
  | some l =>
    -- a leaf that is not in the range stays, and nothing comes below it
    have hnode := Lib.Tree.eq_leaf hl
    subst hnode
    have hout : m.inRange p = false := by
      rw [Bool.eq_false_iff]
      intro hin
      have := (hroot hin).2
      cases this
    have hstays : m.mergedLeaf p (.leaf l) updates [] = some l := by
      rw [mergedLeaf, List.append_nil, hout, if_neg Bool.false_ne_true]
      rfl
    have hnone : ∀ k q, m.mergedLeaf p (.leaf l) updates (k :: q) = none := by
      intro k q
      exact hfree [] (k :: q) (by rw [hstays]; simp) (by simp)
    refine (updateChildren_leaf hnone hchild).mono fun r hr => ?_
    rw [hr]
    refine ⟨.leaf l, fun q => ?_⟩
    cases q with
    | nil => exact hstays.symm
    | cons k q => rw [hnone, leafAt_of_isLeafNode rfl (by simp)]

/-- A node of which nothing is in the range. -/
theorem merged_apart (hn : Canonical node) (hout : ∀ q, m.inRange (p ++ q) = false) :
    m.Merged p node updates node := by
  refine ⟨hn, fun q => ?_⟩
  rw [mergedLeaf, hout q, if_neg Bool.false_ne_true]

/-- The update of a node, when the calls for its children are right. -/
theorem updateRange_spec (hn : Canonical node) (hu : Canonical updates)
    (hfree : LeavesApart (m.mergedLeaf p node updates)) (hclear : m.ClearAboveEnd p node)
    (hchild : m.startInNode p = true ∨ m.endInNode p = true → ∀ k, Returns
      (updateChild k (node.child k) (updates.child k)) (m.Merged (p ++ [k]) (node.child k) (updates.child k))) :
    Returns (m.updateRange p updateChild node updates) (m.Merged p node updates) := by
  unfold updateRange
  apply Returns.ite
  · rintro ⟨hs, he, hin⟩
    exact .ok (merged_below hu hs he hin)
  intro hout
  apply Returns.ite
  · rintro ⟨hs, hin, hleaf⟩
    exact .ok (merged_leaf_above_end hu hfree hs hin hleaf)
  intro hnoleaf
  apply Returns.ite
  · -- both assertions hold here
    rintro ⟨hs, he⟩
    have hend := endComparison_eq_eq.1 he
    have hin : m.endInNode p = true := endInNode_iff.2 ⟨p, hend, List.prefix_rfl⟩
    have hleaf : ¬isLeafNode updates = true := fun h => hnoleaf ⟨hs, hin, h⟩
    have hmerged : m.Merged p node updates (if isLeafNode node then .empty else node) :=
      merged_at_end hn hs hend hleaf
    rw [hin, if_neg (by simp), if_neg hleaf]
    split at hmerged
    · rename_i hnode
      rw [if_pos hnode]
      exact .ok hmerged
    · rename_i hnode
      rw [if_neg hnode]
      exact .ok hmerged
  intro hnotend
  apply Returns.ite
  · intro hends
    rw [Bool.or_eq_true] at hends
    exact returns_updateChildren hn hfree (leafAt_nil_above_end hclear hends hnoleaf hnotend) (hchild hends)
  · intro hapart
    rw [Bool.or_eq_true, not_or, Bool.not_eq_true, Bool.not_eq_true] at hapart
    obtain ⟨hassert, hnone⟩ := inRange_apart hapart.1 hapart.2 hout
    rw [if_pos hassert]
    exact .ok (merged_apart hn hnone)

/-- **Going down ends**, and leaves what belongs there. -/
theorem updateRangeInNode_spec (levels : Nat) (hn : Canonical node) (hu : Canonical updates)
    (hfree : LeavesApart (m.mergedLeaf p node updates)) (hclear : m.ClearAboveEnd p node)
    (hlevels : ∀ x, m.optExclusiveStart = some x ∨ m.optInclusiveEnd = some x → x.length < p.length + levels) :
    Returns (m.updateRangeInNode levels p node updates) (m.Merged p node updates) := by
  induction levels generalizing p node updates with
  | zero =>
    refine updateRange_spec hn hu hfree hclear fun hin => ?_
    -- the path is longer than both ends
    rcases hin with hin | hin
    · obtain ⟨s, hs, hps⟩ := startInNode_iff.1 hin
      have := hps.length_le
      have := hlevels s (Or.inl hs)
      omega
    · obtain ⟨e, he, hpe⟩ := endInNode_iff.1 hin
      have := hpe.length_le
      have := hlevels e (Or.inr he)
      omega
  | succ levels ih =>
    refine updateRange_spec hn hu hfree hclear fun _ k => ?_
    refine ih (hn.child k) (hu.child k) (hfree.child k) (hclear.child k) fun x hx => ?_
    have := hlevels x hx
    rw [List.length_append, List.length_singleton]
    omega

/-- **A range merge replaces the leaves in its range and no others.** It returns without a failed assertion. -/
theorem applyToNode_spec (hn : Canonical node) (hu : Canonical m.updates)
    (hfree : LeavesApart (m.mergedLeaf [] node m.updates)) (hclear : m.ClearAboveEnd [] node) :
    Returns (m.applyToNode node) fun r => Canonical r ∧ ∀ q,
      r.leafAt q = if m.inRange q then m.updates.leafAt q else node.leafAt q := by
  refine updateRangeInNode_spec m.levels hn hu hfree hclear fun x hx => ?_
  unfold levels
  rcases hx with hx | hx
  · rw [hx, Option.getD_some, List.length_nil]
    omega
  · rw [hx, Option.getD_some, List.length_nil]
    omega

/-- A node with one child, a leaf. -/
def single (b : Name) (l : Nat) : Lib.Tree Name Nat := .node [(b, .leaf l)]

theorem leafAt_single (b : Name) (l : Nat) {q : List Name} (h : q ≠ [b]) : (single b l).leafAt q = none := by
  cases q with
  | nil => rfl
  | cons k q =>
    rw [Lib.Tree.leafAt_cons]
    by_cases hk : k = b
    · subst hk
      have hchild : (single k l).child k = .leaf l := by simp [single, Lib.Tree.child, Lib.Tree.children]
      rw [hchild, leafAt_of_isLeafNode rfl]
      rintro rfl
      exact h rfl
    · have hchild : (single b l).child k = .empty := Lib.Tree.child_eq_empty (by simpa [single, Lib.Tree.children])
      rw [hchild, Lib.Tree.leafAt_empty]

theorem canonical_single (b : Name) (l : Nat) : Canonical (single b l) :=
  .node (by simp) (by simp) (by simp) (by simp [Canonical.leaf])

def keyB : Name where
  val := "b"
  plain n _ _ h := by simpa using congrArg String.toList h

/-- The leaf at the end of a range is replaced. -/
def replaceB : RangeMerge Nat := ⟨none, some [keyB], single keyB 6⟩

theorem applyToNode_spec_replaceB : replaceB.inRange [keyB] = true ∧
    Returns (replaceB.applyToNode (single keyB 5)) fun r => Canonical r ∧ ∀ q,
      r.leafAt q = if replaceB.inRange q then (single keyB 6).leafAt q else (single keyB 5).leafAt q := by
  refine ⟨inRange_iff.2 ⟨by simp [replaceB], by simp [replaceB]⟩,
    applyToNode_spec (canonical_single keyB 5) (canonical_single keyB 6) ?_ ?_⟩
  · intro q r hq hr
    have hqb : q = [keyB] := by
      by_contra hne
      exact hq (by rw [mergedLeaf, replaceB, leafAt_single keyB 6 hne, leafAt_single keyB 5 hne, ite_self])
    have hne : q ++ r ≠ [keyB] := by simpa [hqb] using hr
    rw [mergedLeaf, replaceB, leafAt_single keyB 6 hne, leafAt_single keyB 5 hne, ite_self]
  · intro e he q _ hne
    cases he
    exact leafAt_single keyB 5 hne

end RangeMerge

end ChatApp
