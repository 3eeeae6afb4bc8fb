import ChatApp.Firebase.View.Processor

/-!
# What an operation does to a view

Every function of `FViewProcessor` returns, whatever the caches hold, and the changes it collects lead from the old
children of the event cache to the new ones (`Accumulated`). Beside this, what becomes of the two caches:

- `applyUserOverwriteTo_spec`: a local write goes into a complete event cache;
- `generateEventCacheAfterServerEvent_spec`, `applyServerOverwriteTo_spec`: data from the server goes into the server
  cache, and with the pending writes on it into a complete event cache (`Regenerated`), unless a write shadows it;
- `applyServerMergeTo_eq`, `applyUserMergeTo_eq`: the two passes of a merge are one loop in another order;
- `applyTo_spec`: so no operation raises, and a complete server cache stays complete.
-/

namespace ChatApp

open Lib (Returns)
open Lib.Tree (Same Canonical)
open FIndexedFilter (hasChild isLeafNode updateChildIn updateFullNode replaceChild)

variable {κ ℓ : Type} [LinearOrder κ]

/-- The pending writes and the data of the operation are canonical. -/
def Operation.Sound : Operation κ ℓ → Prop
  | .userOverwrite _ snap => Canonical snap
  | .userMerge _ children => children.CanonicalValues
  | .serverOverwrite _ snap => Canonical snap
  | .serverMerge _ children => children.CanonicalValues
  | .ackUserWrite _ _ _ => True
  | .listenComplete _ => True

namespace FViewProcessor

variable {old : κ → Lib.Tree κ ℓ} {c : ViewCache κ ℓ} {acc : Option (ChangeMap κ ℓ)}
  {writes : WriteTreeRef κ ℓ}

/-! ## What becomes of the caches -/

/-- The caches are canonical, and the changes lead from the children `old` to those of the event cache. -/
def Accumulated (old : κ → Lib.Tree κ ℓ) (u : Update κ ℓ) : Prop :=
  u.1.Sound ∧ ∃ changes, u.2 = some changes ∧ Tracks old u.1.cachedEventSnap.node.child changes

/-- A local write at `path` goes into a complete event cache; the server cache is not touched. -/
structure Written (path : List κ) (snap : Lib.Tree κ ℓ) (c r : ViewCache κ ℓ) : Prop where
  server : r.cachedServerSnap = c.cachedServerSnap
  full : r.cachedEventSnap.isFullyInitialized = (c.cachedEventSnap.isFullyInitialized || path.isEmpty)
  event : r.cachedEventSnap.isFullyInitialized = true →
    Same r.cachedEventSnap.node (c.cachedEventSnap.node.set path snap)

theorem completeChild_of_full (h : c.cachedEventSnap.isFullyInitialized = true) (opt : Option (Lib.Tree κ ℓ)) (k : κ) :
    completeChild writes c opt k = some (c.cachedEventSnap.node.child k) := by
  have hcomplete : c.cachedEventSnap.isCompleteForChild k = true := by rw [CacheNode.isCompleteForChild, h]; rfl
  simp [completeChild, hcomplete]

theorem canonical_completeChild (hc : c.Sound) (hw : writes.visibleWrites.CanonicalValues)
    {opt : Option (Lib.Tree κ ℓ)} (hopt : ∀ t, opt = some t → Canonical t) {k : κ} {child : Lib.Tree κ ℓ}
    (h : completeChild writes c opt k = some child) : Canonical child := by
  unfold completeChild at h
  dsimp only at h
  split at h
  · cases h
    exact hc.event.child k
  · refine writes.canonical_calculateCompleteChild hw ?_ h
    cases opt with
    | none => exact hc.server
    | some t => exact hopt t rfl

/-- The child that a local write below it leaves. -/
def writtenChild (writes : WriteTreeRef κ ℓ) (c : ViewCache κ ℓ) (opt : Option (Lib.Tree κ ℓ)) (k : κ)
    (path : List κ) (snap : Lib.Tree κ ℓ) : Lib.Tree κ ℓ :=
  if path.isEmpty then snap
  else match completeChild writes c opt k with
    | some childNode => childNode.set path snap
    | none => .empty

theorem canonical_writtenChild (hc : c.Sound) (hw : writes.visibleWrites.CanonicalValues)
    {opt : Option (Lib.Tree κ ℓ)} (hopt : ∀ t, opt = some t → Canonical t) {x : Lib.Tree κ ℓ} (hx : Canonical x)
    (k : κ) (p : List κ) : Canonical (writtenChild writes c opt k p x) := by
  unfold writtenChild
  split
  · exact hx
  · split
    · rename_i child hchild
      exact (canonical_completeChild hc hw hopt hchild).set hx p
    · exact .empty

theorem writtenChild_of_full (h : c.cachedEventSnap.isFullyInitialized = true) (opt : Option (Lib.Tree κ ℓ)) (k : κ)
    (p : List κ) (x : Lib.Tree κ ℓ) :
    writtenChild writes c opt k p x = (c.cachedEventSnap.node.child k).set p x := by
  unfold writtenChild
  split
  · rename_i hp
    rw [List.isEmpty_iff.1 hp]
    rfl
  · rw [completeChild_of_full h]

/-- After data from the server at `path`: nothing changes under a write that shadows the path, and otherwise a complete
event cache gets the new data with the pending writes on it. -/
structure Regenerated (writes : WriteTreeRef κ ℓ) (path : List κ) (c r : ViewCache κ ℓ) : Prop where
  server : r.cachedServerSnap = c.cachedServerSnap
  shadowed : (writes.shadowingWriteAtPath path).isSome = true → r = c
  full : writes.shadowingWriteAtPath path = none →
    r.cachedEventSnap.isFullyInitialized = (c.cachedEventSnap.isFullyInitialized || path.isEmpty)
  event : writes.shadowingWriteAtPath path = none → r.cachedEventSnap.isFullyInitialized = true →
    Same r.cachedEventSnap.node (c.cachedEventSnap.node.set path (writes.applied path c.cachedServerSnap.node))

theorem newEventChild_of_full {k : κ} {p : List κ} (hs : writes.shadowingWriteAtPath (k :: p) = none)
    (h : c.cachedEventSnap.isFullyInitialized = true) : newEventChild c writes k p =
      some ((c.cachedEventSnap.node.child k).set p (writes.applied (k :: p) c.cachedServerSnap.node)) := by
  have hcomplete : c.cachedEventSnap.isCompleteForChild k = true := by rw [CacheNode.isCompleteForChild, h]; rfl
  simp [newEventChild, hcomplete, WriteTreeRef.calculateEventCacheAfterServerOverwrite_eq hs]

theorem canonical_newEventChild (hc : c.Sound) (hw : writes.visibleWrites.CanonicalValues) {k : κ} {p : List κ}
    (hs : writes.shadowingWriteAtPath (k :: p) = none) {child : Lib.Tree κ ℓ}
    (h : newEventChild c writes k p = some child) : Canonical child := by
  unfold newEventChild at h
  dsimp only at h
  split at h
  · rw [WriteTreeRef.calculateEventCacheAfterServerOverwrite_eq hs] at h
    cases h
    exact (hc.event.child k).set (writes.canonical_applied hw _ hc.server) p
  · exact writes.canonical_calculateCompleteChild hw hc.server h

/-- Data from the server goes into the server cache, unless that is not complete and the data is far below; from a
complete server cache it goes into the event cache. -/
structure Overwritten (writes : WriteTreeRef κ ℓ) (path : List κ) (snap : Lib.Tree κ ℓ) (c r : ViewCache κ ℓ) :
    Prop where
  full : r.cachedServerSnap.isFullyInitialized = (c.cachedServerSnap.isFullyInitialized || path.isEmpty)
  server : Same r.cachedServerSnap.node (c.cachedServerSnap.node.set path snap) ∨
    (r = c ∧ r.cachedServerSnap.isFullyInitialized = false)
  shadowed : (writes.shadowingWriteAtPath path).isSome = true → r.cachedEventSnap = c.cachedEventSnap
  event : r.cachedServerSnap.isFullyInitialized = true →
    Regenerated writes path { c with cachedServerSnap := r.cachedServerSnap } r

/-- The writes of a local merge in the order they are applied. -/
def userMergeOrder (c : ViewCache κ ℓ) (path : List κ) (merge : CompoundWrite κ ℓ) : List (List κ × Lib.Tree κ ℓ) :=
  merge.writes.filter (fun e => cacheHasChild c (path ++ e.1)) ++
    merge.writes.filter fun e => !cacheHasChild c (path ++ e.1)

/-- What a merge from the server is about. -/
def actualMerge (path : List κ) (merge : CompoundWrite κ ℓ) : CompoundWrite κ ℓ :=
  if path.isEmpty then merge else CompoundWrite.emptyWrite.addCompoundWrite merge path

/-- The children of a merge from the server in the order they are applied. -/
def serverMergeOrder (c : ViewCache κ ℓ) (merge : CompoundWrite κ ℓ) : List (κ × CompoundWrite κ ℓ) :=
  merge.childCompoundWrites.filter (fun e => hasChild c.cachedServerSnap.node e.1) ++
    merge.childCompoundWrites.filter fun e => !hasChild c.cachedServerSnap.node e.1 &&
      !(!c.cachedServerSnap.isCompleteForChild e.1 && e.2.rootWrite.isNone)

theorem canonicalValues_actualMerge {merge : CompoundWrite κ ℓ} (h : merge.CanonicalValues) (p : List κ) :
    (actualMerge p merge).CanonicalValues := by
  unfold actualMerge
  split
  · exact h
  · rw [WriteTree.addCompoundWrite_eq]
    refine CompoundWrite.CanonicalValues.addWrites (fun w hw => ?_) CompoundWrite.canonicalValues_emptyWrite
    obtain ⟨e, he, rfl⟩ := List.mem_map.1 hw
    exact CompoundWrite.CanonicalValues.of_mem_writes (e := e) h he

theorem canonicalValues_of_mem {merge : CompoundWrite κ ℓ} (h : merge.CanonicalValues) {e : κ × CompoundWrite κ ℓ}
    (he : e ∈ merge.childCompoundWrites) : e.2.CanonicalValues := by
  obtain ⟨k, -, rfl⟩ := List.mem_map.1 he
  intro q v hv
  exact h (k :: q) v (by rw [ImmutableTree.valueAtPath_cons]; exact hv)

theorem mem_serverMergeOrder {merge : CompoundWrite κ ℓ} {e : κ × CompoundWrite κ ℓ}
    (he : e ∈ serverMergeOrder c merge) : e ∈ merge.childCompoundWrites := by
  rcases List.mem_append.1 he with he | he
  · exact (List.mem_filter.1 he).1
  · exact (List.mem_filter.1 he).1

/-- The writes say again what the node has. -/
structure Repeats (node : Lib.Tree κ ℓ) (cw : CompoundWrite κ ℓ) : Prop where
  canonical : cw.CanonicalValues
  same : ∀ q n, cw.completeNodeAtPath q = some n → Same n (node.get q)

theorem repeats_emptyWrite (node : Lib.Tree κ ℓ) : Repeats node CompoundWrite.emptyWrite where
  canonical := CompoundWrite.canonicalValues_emptyWrite
  same q n hn := by
    rw [CompoundWrite.completeNodeAtPath, CompoundWrite.emptyWrite, CompoundWrite.completeNode_empty] at hn
    cases hn

theorem Repeats.addWrite {node : Lib.Tree κ ℓ} {cw : CompoundWrite κ ℓ} (h : Repeats node cw) {p : List κ}
    {n : Lib.Tree κ ℓ} (hn : Canonical n) (hs : Same n (node.get p)) : Repeats node (cw.addWrite n p) where
  canonical := h.canonical.addWrite hn p
  same q x hx := by
    by_cases hpq : p <+: q
    · obtain ⟨r, rfl⟩ := hpq
      have := CompoundWrite.completeNode_addWriteTree_below cw.leafValues n p r
      rw [CompoundWrite.completeNodeAtPath, CompoundWrite.addWrite, this, Option.some.injEq] at hx
      rw [← hx, Lib.Tree.get_append]
      exact hs.get r
    · by_cases hqp : q <+: p
      · -- the write goes into what was there
        obtain ⟨r, rfl⟩ := hqp
        have hr : r ≠ [] := fun he => hpq (by simp [he])
        have := CompoundWrite.completeNode_addWriteTree_above cw.leafValues n q hr
        rw [CompoundWrite.completeNodeAtPath, CompoundWrite.addWrite, this] at hx
        obtain ⟨v, hv, rfl⟩ := Option.map_eq_some_iff.1 hx
        have hsame := h.same q v hv
        refine (Lib.Tree.set_same hn ?_).trans hsame
        rw [Lib.Tree.get_append] at hs
        exact hs.trans (hsame.get r).symm
      · have := CompoundWrite.completeNode_addWriteTree_apart cw.leafValues n ⟨hpq, hqp⟩
        rw [CompoundWrite.completeNodeAtPath, CompoundWrite.addWrite, this] at hx
        exact h.same q x hx

theorem Repeats.of_mem_writes {node : Lib.Tree κ ℓ} {cw : CompoundWrite κ ℓ} (h : Repeats node cw)
    {e : List κ × Lib.Tree κ ℓ} (he : e ∈ cw.writes) : Canonical e.2 ∧ Same e.2 (node.get e.1) := by
  refine ⟨h.canonical.of_mem_writes he, h.same e.1 e.2 ?_⟩
  have := CompoundWrite.completeNode_of_valueAtPath cw.leafValues (cw.leafValues.mem_forEach.1 he) []
  rwa [List.append_nil] at this

theorem Repeats.addWrites {node : Lib.Tree κ ℓ} {ws : List (List κ × Lib.Tree κ ℓ)}
    (hws : ∀ w ∈ ws, Canonical w.2 ∧ Same w.2 (node.get w.1)) {cw : CompoundWrite κ ℓ} (h : Repeats node cw) :
    Repeats node (CompoundWrite.addWrites ws cw) := by
  induction ws generalizing cw with
  | nil => exact h
  | cons w ws ih =>
    obtain ⟨hw, hws⟩ := List.forall_mem_cons.1 hws
    exact ih hws (h.addWrite hw.1 hw.2)

theorem Repeats.actualMerge {node : Lib.Tree κ ℓ} {p : List κ} {merge : CompoundWrite κ ℓ}
    (h : Repeats (node.get p) merge) : Repeats node (actualMerge p merge) := by
  unfold FViewProcessor.actualMerge
  split
  · rename_i hp
    rw [List.isEmpty_iff.1 hp] at h
    exact h
  · rw [WriteTree.addCompoundWrite_eq]
    refine (repeats_emptyWrite node).addWrites fun w hw => ?_
    obtain ⟨e, he, rfl⟩ := List.mem_map.1 hw
    rw [Lib.Tree.get_append]
    exact Repeats.of_mem_writes (e := e) h he

/-- Writing a child again leaves it as it is. -/
theorem Repeats.applyToNode {node : Lib.Tree κ ℓ} {merge : CompoundWrite κ ℓ} (h : Repeats node merge)
    {e : κ × CompoundWrite κ ℓ} (he : e ∈ merge.childCompoundWrites) {child : Lib.Tree κ ℓ}
    (hs : Same child (node.child e.1)) : Same (e.2.applyToNode child) child := by
  obtain ⟨k, -, rfl⟩ := List.mem_map.1 he
  rw [CompoundWrite.applyToNode, CompoundWrite.applySubtreeWrite_eq_foldl (merge.leafValues.child k)]
  simp only [List.nil_append, List.map_id']
  have hall : ∀ w ∈ (merge.writeTree.child k).forEach, Canonical w.2 ∧ Same w.2 ((node.child k).get w.1) := by
    intro w hw
    refine Repeats.of_mem_writes (e := (k :: w.1, w.2)) h (merge.leafValues.mem_forEach.2 ?_)
    rw [ImmutableTree.valueAtPath_cons]
    exact (merge.leafValues.child k).mem_forEach.1 hw
  revert hall
  generalize (merge.writeTree.child k).forEach = ws
  intro hall
  suffices hgo : ∀ t, Same t (node.child k) → Same (ws.foldl (fun n w => n.set w.1 w.2) t) t from hgo child hs
  induction ws with
  | nil => exact fun t _ => Same.refl t
  | cons w ws ih =>
    obtain ⟨hw, hws⟩ := List.forall_mem_cons.1 hall
    intro t ht
    have hset : Same (t.set w.1 w.2) t := Lib.Tree.set_same hw.1 (hw.2.trans (ht.get w.1).symm)
    exact (ih hws _ (hset.trans ht)).trans hset

/-- The rounds of a local merge. -/
abbrev WrittenRounds (old : κ → Lib.Tree κ ℓ) (path : List κ) :
    List (List κ × Lib.Tree κ ℓ) → Update κ ℓ → Update κ ℓ → Prop :=
  Lib.Rounds (Accumulated old) fun e u u' => Written (path ++ e.1) e.2 u.1 u'.1

/-- The rounds of a merge from the server, with the server cache at its beginning. -/
abbrev OverwrittenRounds (old : κ → Lib.Tree κ ℓ) (writes : WriteTreeRef κ ℓ) (server : Lib.Tree κ ℓ) :
    List (κ × CompoundWrite κ ℓ) → Update κ ℓ → Update κ ℓ → Prop :=
  Lib.Rounds (Accumulated old) fun e u u' =>
    Overwritten writes [e.1] (e.2.applyToNode (server.child e.1)) u.1 u'.1

theorem WrittenRounds.server {path : List κ} {es : List (List κ × Lib.Tree κ ℓ)} {u r : Update κ ℓ}
    (h : WrittenRounds old path es u r) : r.1.cachedServerSnap = u.1.cachedServerSnap := by
  induction h with
  | nil s => rfl
  | cons hw hi hs ih => exact ih.trans hw.server

/-- A merge of children leaves the server cache as complete as it was. -/
theorem OverwrittenRounds.full {server : Lib.Tree κ ℓ} {cs : List (κ × CompoundWrite κ ℓ)} {u r : Update κ ℓ}
    (h : OverwrittenRounds old writes server cs u r) :
    r.1.cachedServerSnap.isFullyInitialized = u.1.cachedServerSnap.isFullyInitialized := by
  induction h with
  | nil s => rfl
  | cons ho hi hs ih =>
    rw [ih, ho.full]
    simp

/-- A merge that repeats the server's data leaves it as it is. -/
theorem OverwrittenRounds.same {server : Lib.Tree κ ℓ} (hserver : Canonical server) {merge : CompoundWrite κ ℓ}
    (hm : Repeats server merge) {cs : List (κ × CompoundWrite κ ℓ)} (hcs : ∀ e ∈ cs, e ∈ merge.childCompoundWrites)
    {u r : Update κ ℓ} (h : OverwrittenRounds old writes server cs u r) (hu : Same u.1.cachedServerSnap.node server) :
    Same r.1.cachedServerSnap.node server := by
  induction h with
  | nil s => exact hu
  | @cons e cs s s' s'' ho hi hs ih =>
    obtain ⟨he, hcs⟩ := List.forall_mem_cons.1 hcs
    refine ih hcs ?_
    rcases ho.server with hset | ⟨heq, -⟩
    · have hx := hm.applyToNode he (Same.refl (server.child e.1))
      have hcan := (canonicalValues_of_mem hm.canonical he).applyToNode (hserver.child e.1)
      have hsame := Lib.Tree.set_same (t := s.1.cachedServerSnap.node) (p := [e.1]) hcan (hx.trans (hu.child e.1).symm)
      exact (hset.trans hsame).trans hu
    · rw [heq]
      exact hu

/-- The server's data at the paths of an acknowledged merge. -/
def affectedData (c : ViewCache κ ℓ) (ackPath : List κ) (affectedTree : ImmutableTree κ Unit) : CompoundWrite κ ℓ :=
  affectedTree.forEach.foldl (fun cw e =>
    if c.cachedServerSnap.isCompleteForPath (ackPath ++ e.1) then
      cw.addWrite (c.cachedServerSnap.node.get (ackPath ++ e.1)) e.1
    else cw) CompoundWrite.emptyWrite

theorem repeats_affectedData (hc : c.Sound) (p : List κ) (affected : ImmutableTree κ Unit) :
    Repeats (c.cachedServerSnap.node.get p) (affectedData c p affected) := by
  have hall : ∀ (es : List (List κ × Unit)) {cw : CompoundWrite κ ℓ}, Repeats (c.cachedServerSnap.node.get p) cw →
      Repeats (c.cachedServerSnap.node.get p) (es.foldl (fun cw e =>
        if c.cachedServerSnap.isCompleteForPath (p ++ e.1) then
          cw.addWrite (c.cachedServerSnap.node.get (p ++ e.1)) e.1 else cw) cw) := by
    intro es
    induction es with
    | nil => exact id
    | cons e es ih =>
      intro cw hcw
      rw [List.foldl_cons]
      apply ih
      split
      · refine hcw.addWrite (hc.server.get _) ?_
        rw [Lib.Tree.get_append]
        exact Same.refl _
      · exact hcw
  exact hall _ (repeats_emptyWrite _)

/-- The children of the server cache as writes. -/
theorem repeats_children {node : Lib.Tree κ ℓ} (h : Canonical node) :
    Repeats node (node.children.foldl (fun cw c => cw.addWrite c.2 [c.1]) CompoundWrite.emptyWrite) := by
  have hws : ∀ w ∈ node.children.map fun d => ([d.1], d.2), Canonical w.2 ∧ Same w.2 (node.get w.1) := by
    intro w hw
    obtain ⟨d, hd, rfl⟩ := List.mem_map.1 hw
    have hchild : node.get [d.1] = d.2 := (h.child_of_mem hd).1
    rw [hchild]
    exact ⟨hchild ▸ h.child d.1, Same.refl _⟩
  have := (repeats_emptyWrite node).addWrites hws
  rwa [CompoundWrite.addWrites, List.foldl_map] at this

/-- An acknowledged write: under another write nothing changes; otherwise a complete server cache is applied again at
the affected paths. -/
structure Acked (old : κ → Lib.Tree κ ℓ) (writes : WriteTreeRef κ ℓ) (path : List κ)
    (affectedTree : ImmutableTree κ Unit) (u r : Update κ ℓ) : Prop where
  shadowed : (writes.shadowingWriteAtPath path).isSome = true → r.1 = u.1
  full : r.1.cachedServerSnap.isFullyInitialized = u.1.cachedServerSnap.isFullyInitialized
  server : Same r.1.cachedServerSnap.node u.1.cachedServerSnap.node
  overwrite : u.1.cachedServerSnap.isFullyInitialized = true → writes.shadowingWriteAtPath path = none →
    affectedTree.value.isSome = true →
    Overwritten writes path (u.1.cachedServerSnap.node.get path) u.1 r.1
  merge : u.1.cachedServerSnap.isFullyInitialized = true → writes.shadowingWriteAtPath path = none →
    affectedTree.value = none → OverwrittenRounds old writes u.1.cachedServerSnap.node
      (serverMergeOrder u.1 (actualMerge path (affectedData u.1 path affectedTree))) u r

/-- Without complete data, an answer is only about what was not complete before. -/
theorem Acked.of_not_full {p : List κ} {affected : ImmutableTree κ Unit} {u r : Update κ ℓ}
    (hs : writes.shadowingWriteAtPath p = none)
    (hf : r.1.cachedServerSnap.isFullyInitialized = u.1.cachedServerSnap.isFullyInitialized)
    (hsame : Same r.1.cachedServerSnap.node u.1.cachedServerSnap.node)
    (h : u.1.cachedServerSnap.isFullyInitialized = false) : Acked old writes p affected u r where
  shadowed hsome := by rw [hs] at hsome; cases hsome
  full := hf
  server := hsame
  overwrite htrue := by rw [h] at htrue; cases htrue
  merge htrue := by rw [h] at htrue; cases htrue

/-- The event cache with the child at `k` made anew, or as it is when the child holds the right data at `p`. -/
def ChildRenewed (writes : WriteTreeRef κ ℓ) (c : ViewCache κ ℓ) (k : κ) (p : List κ) (node : Lib.Tree κ ℓ) : Prop :=
  (node = c.cachedEventSnap.node ∧ Same ((writes.applied [k] c.cachedServerSnap.node).get p) ((node.child k).get p)) ∨
    node = c.cachedEventSnap.node.setChild k (writes.applied [k] c.cachedServerSnap.node)

/-- The event cache without the write at a path: the first child on the way to it is made anew, or everything is. -/
def Renewed (writes : WriteTreeRef κ ℓ) (c : ViewCache κ ℓ) (node : Lib.Tree κ ℓ) : List κ → Prop
  | [] => node = writes.applied [] c.cachedServerSnap.node
  | k :: p => ChildRenewed writes c k p node ∨
      ChildRenewed writes c k p .empty ∧ node = writes.applied [] c.cachedServerSnap.node

/-- A write that was taken back, with complete data from the server. -/
structure Reverted (writes : WriteTreeRef κ ℓ) (path : List κ) (c r : ViewCache κ ℓ) : Prop where
  server : r.cachedServerSnap = c.cachedServerSnap
  shadowed : (writes.shadowingWriteAtPath path).isSome = true → r = c
  full : writes.shadowingWriteAtPath path = none → c.cachedServerSnap.isFullyInitialized = true →
    r.cachedEventSnap.isFullyInitialized = true
  event : writes.shadowingWriteAtPath path = none → c.cachedServerSnap.isFullyInitialized = true →
    Renewed writes c r.cachedEventSnap.node path

/-! ## The filter -/

variable [DecidableEq ℓ]

/-- A child that is written below is written at a longer path. -/
theorem same_replaceChild {node x : Lib.Tree κ ℓ} (hx : Canonical x) (k : κ) (p : List κ) :
    Same (replaceChild node k ((node.child k).set p x) p) (node.set (k :: p) x) := by
  unfold replaceChild
  split
  · rename_i h
    rw [Bool.and_eq_true, Lib.Tree.isEqual_iff, Lib.Tree.get_set_self] at h
    exact (Lib.Tree.set_same (p := k :: p) hx h.1.symm).symm
  · exact Same.refl _

/-- Replacing a child of the event cache. -/
theorem updateEventChild (h : Accumulated old (c, acc)) (hold : ∀ k, Canonical (old k)) {x : Lib.Tree κ ℓ}
    (hx : Canonical x) (k : κ) (p : List κ) (b : Bool) :
    Returns (updateChildIn c.cachedEventSnap.node k x p acc) fun r =>
      r.1 = replaceChild c.cachedEventSnap.node k x p ∧ Accumulated old (c.updateEventSnap r.1 b, r.2) := by
  obtain ⟨hs, changes, rfl, ht⟩ := h
  have hacc : FIndexedFilter.Accumulates old c.cachedEventSnap.node.child (some changes) := ht
  refine (FIndexedFilter.updateChildIn_spec hacc (hold k) hs.event p).mono fun r hr => ?_
  obtain ⟨h1, h2, h3⟩ := hr
  refine ⟨h1, ⟨?_, hs.server⟩, ?_⟩
  · rw [h1]
    exact FIndexedFilter.canonical_replaceChild hs.event hx k p
  · obtain ⟨m, hm⟩ := Option.isSome_iff_exists.1 h3
    rw [hm] at h2
    exact ⟨m, hm, h2⟩

/-- Replacing the whole event cache. -/
theorem updateEventNode (h : Accumulated old (c, acc)) (hold : ∀ k, Canonical (old k)) {x : Lib.Tree κ ℓ}
    (hx : Canonical x) (b : Bool) :
    Returns (updateFullNode c.cachedEventSnap.node x acc) fun r =>
      r.1 = x ∧ Accumulated old (c.updateEventSnap r.1 b, r.2) := by
  obtain ⟨hs, changes, rfl, ht⟩ := h
  have hacc : FIndexedFilter.Accumulates old c.cachedEventSnap.node.child (some changes) := ht
  refine (FIndexedFilter.updateFullNode_spec hacc hold hs.event hx).mono fun r hr => ?_
  obtain ⟨h1, h2, h3⟩ := hr
  refine ⟨h1, ⟨?_, hs.server⟩, ?_⟩
  · rw [h1]
    exact hx
  · obtain ⟨m, hm⟩ := Option.isSome_iff_exists.1 h3
    rw [hm] at h2
    exact ⟨m, hm, h2⟩

/-! ## Local writes -/

theorem applyUserOverwriteTo_spec (h : Accumulated old (c, acc)) (hold : ∀ k, Canonical (old k))
    (hw : writes.visibleWrites.CanonicalValues) {opt : Option (Lib.Tree κ ℓ)} (hopt : ∀ t, opt = some t → Canonical t)
    {x : Lib.Tree κ ℓ} (hx : Canonical x) (p : List κ) :
    Returns (applyUserOverwriteTo c p x writes opt acc) fun r => Accumulated old r ∧ Written p x c r.1 := by
  unfold applyUserOverwriteTo
  cases p with
  | nil =>
    apply (updateEventNode h hold hx true).bind
    rintro ⟨node, acc'⟩ ⟨rfl, hacc⟩
    refine .pure ⟨hacc, rfl, ?_, fun _ => Same.refl _⟩
    simp [ViewCache.updateEventSnap]
  | cons k p =>
    have hchild := canonical_writtenChild h.1 hw hopt hx k p
    have hset : c.cachedEventSnap.isFullyInitialized = true →
        writtenChild writes c opt k p x = (c.cachedEventSnap.node.child k).set p x :=
      fun hf => writtenChild_of_full hf opt k p x
    show Returns (if (c.cachedEventSnap.node.child k).isEqual (writtenChild writes c opt k p x) then _ else _) _
    apply Returns.ite
    · intro hequal
      refine .pure ⟨h, rfl, by simp, fun hf => ?_⟩
      rw [hset hf, Lib.Tree.isEqual_iff] at hequal
      refine (Lib.Tree.set_same (p := k :: p) hx ?_).symm
      have := hequal.get p
      rw [Lib.Tree.get_set_self] at this
      exact this.symm
    · intro _
      apply (updateEventChild h hold hchild k p _).bind
      rintro ⟨node, acc'⟩ ⟨rfl, hacc⟩
      refine .pure ⟨hacc, rfl, by simp [ViewCache.updateEventSnap], fun hf => ?_⟩
      show Same (replaceChild _ k (writtenChild writes c opt k p x) p) _
      rw [hset hf]
      exact same_replaceChild hx k p

/-! ## Data from the server -/

/-- The new event cache, in a view that will be complete or not. -/
theorem newEventCache_spec (h : Accumulated old (c, acc)) (hold : ∀ k, Canonical (old k))
    (hw : writes.visibleWrites.CanonicalValues) {p : List κ} (hs : writes.shadowingWriteAtPath p = none)
    (hfull : p = [] → c.cachedServerSnap.isFullyInitialized = true) (b : Bool) :
    Returns (newEventCache c p writes acc) fun r => Accumulated old (c.updateEventSnap r.1 b, r.2) ∧
      ((c.cachedEventSnap.isFullyInitialized || p.isEmpty) = true →
        Same r.1 (c.cachedEventSnap.node.set p (writes.applied p c.cachedServerSnap.node))) := by
  unfold newEventCache
  cases p with
  | nil =>
    have hcomplete : c.completeServerSnap = some c.cachedServerSnap.node := by
      rw [ViewCache.completeServerSnap, if_pos (hfull rfl)]
    simp only [if_pos (hfull rfl), hcomplete, WriteTreeRef.calculateCompleteEventCache_eq hs, Option.getD_some]
    refine (updateEventNode h hold (writes.canonical_applied hw [] h.1.server) b).mono fun r hr => ⟨hr.2, fun _ => ?_⟩
    rw [hr.1]
    exact Same.refl _
  | cons k p =>
    have hknown : (c.cachedEventSnap.isFullyInitialized || (k :: p).isEmpty) = true → newEventChild c writes k p =
        some ((c.cachedEventSnap.node.child k).set p (writes.applied (k :: p) c.cachedServerSnap.node)) :=
      fun hf => newEventChild_of_full hs (by simpa using hf)
    cases hchild : newEventChild c writes k p with
    | none =>
      -- the event cache is not complete, or the child would be known
      simp only [hchild]
      refine .ok ⟨⟨⟨h.1.event, h.1.server⟩, h.2⟩, fun hf => ?_⟩
      rw [hknown hf] at hchild
      cases hchild
    | some child =>
      simp only [hchild]
      have hupdate := updateEventChild h hold (canonical_newEventChild h.1 hw hs hchild) k p b
      refine hupdate.mono fun r hr => ⟨hr.2, fun hf => ?_⟩
      rw [hknown hf, Option.some.injEq] at hchild
      rw [hr.1, ← hchild]
      exact same_replaceChild (writes.canonical_applied hw _ h.1.server) k p

theorem generateEventCacheAfterServerEvent_spec (h : Accumulated old (c, acc)) (hold : ∀ k, Canonical (old k))
    (hw : writes.visibleWrites.CanonicalValues) {p : List κ}
    (hfull : p = [] → c.cachedServerSnap.isFullyInitialized = true) :
    Returns (generateEventCacheAfterServerEvent c p writes acc) fun r =>
      Accumulated old r ∧ Regenerated writes p c r.1 := by
  unfold generateEventCacheAfterServerEvent
  apply Returns.ite
  · intro hs
    refine .pure ⟨h, rfl, fun _ => rfl, fun hno => ?_, fun hno => ?_⟩ <;>
    · rw [hno] at hs
      cases hs
  · intro hs
    rw [Bool.not_eq_true, Option.isSome_eq_false_iff, Option.isNone_iff_eq_none] at hs
    apply (newEventCache_spec h hold hw hs hfull _).bind
    rintro ⟨node, acc'⟩ ⟨hacc, hsame⟩
    refine .pure ⟨hacc, rfl, fun hsome => ?_, fun _ => rfl, fun _ hf => hsame hf⟩
    rw [hs] at hsome
    cases hsome

/-- The server cache with new data at a path. -/
theorem newServerCache_spec {node x : Lib.Tree κ ℓ} (hn : Canonical node) (hx : Canonical x) (p : List κ) :
    Returns (newServerCache node p x) fun r => Canonical r.1 ∧ Same r.1 (node.set p x) := by
  cases p with
  | nil => exact .pure ⟨hx, Same.refl _⟩
  | cons k p =>
    have hacc : FIndexedFilter.Accumulates node.child node.child none := trivial
    refine (FIndexedFilter.updateChildIn_spec hacc (hn.child k) hn p).mono fun r hr => ?_
    rw [hr.1]
    exact ⟨FIndexedFilter.canonical_replaceChild hn ((hn.child k).set hx p) k p, same_replaceChild hx k p⟩

theorem applyServerOverwriteTo_spec (h : Accumulated old (c, acc)) (hold : ∀ k, Canonical (old k))
    (hw : writes.visibleWrites.CanonicalValues) {x : Lib.Tree κ ℓ} (hx : Canonical x) (p : List κ) :
    Returns (applyServerOverwriteTo c p x writes acc) fun r => Accumulated old r ∧ Overwritten writes p x c r.1 := by
  unfold applyServerOverwriteTo
  apply Returns.ite
  · intro hignored
    rw [Bool.and_eq_true, decide_eq_true_eq] at hignored
    cases p with
    | nil => exact absurd hignored.2 (by simp)
    | cons k p =>
      have hnot : c.cachedServerSnap.isFullyInitialized = false := by
        have := hignored.1
        simp only [CacheNode.isCompleteForPath, CacheNode.isCompleteForChild, Bool.not_eq_true', Bool.or_eq_false_iff]
          at this
        exact this.1
      refine .pure ⟨h, by simp, Or.inr ⟨rfl, hnot⟩, fun _ => rfl, fun hf => ?_⟩
      rw [hnot] at hf
      cases hf
  · intro _
    apply (newServerCache_spec h.1.server hx p).bind
    rintro ⟨node, _⟩ ⟨hcan, hsame⟩
    have hacc : Accumulated old (c.updateServerSnap node (c.cachedServerSnap.isFullyInitialized || p.isEmpty), acc) :=
      ⟨⟨h.1.event, hcan⟩, h.2⟩
    refine (generateEventCacheAfterServerEvent_spec hacc hold hw fun hp => ?_).mono fun r hr => ⟨hr.1, ?_⟩
    · rw [hp]
      simp [ViewCache.updateServerSnap]
    · obtain ⟨-, hserver, hshadow, hf, he⟩ := hr
      constructor
      · rw [hserver]
        rfl
      · left
        rw [hserver]
        exact hsame
      · intro hs
        rw [hshadow hs]
        rfl
      · intro _
        rw [hserver]
        exact ⟨hserver, hshadow, hf, he⟩

/-! ## Merges -/

theorem applyUserMergeTo_eq (c : ViewCache κ ℓ) (p : List κ) (merge : CompoundWrite κ ℓ) (writes : WriteTreeRef κ ℓ)
    (opt : Option (Lib.Tree κ ℓ)) (acc : Option (ChangeMap κ ℓ)) : applyUserMergeTo c p merge writes opt acc =
      (userMergeOrder c p merge).foldlM (fun cur e => applyUserOverwriteTo cur.1 (p ++ e.1) e.2 writes opt cur.2)
        (c, acc) := by
  rw [userMergeOrder, ← Lib.foldlM_passes]
  rfl

theorem applyServerMergeTo_eq (p : List κ) (merge : CompoundWrite κ ℓ) (writes : WriteTreeRef κ ℓ)
    (acc : Option (ChangeMap κ ℓ))
    (h : (c.cachedServerSnap.node.isEmpty && !c.cachedServerSnap.isFullyInitialized) = false) :
    applyServerMergeTo c p merge writes acc =
      (serverMergeOrder c (actualMerge p merge)).foldlM (fun cur e => applyServerOverwriteTo cur.1 [e.1]
        (e.2.applyToNode (c.cachedServerSnap.node.child e.1)) writes cur.2) (c, acc) := by
  unfold applyServerMergeTo
  simp only [h, Bool.false_eq_true, if_false]
  rw [serverMergeOrder, ← Lib.foldlM_passes]
  rfl

theorem applyUserMergeTo_spec (h : Accumulated old (c, acc)) (hold : ∀ k, Canonical (old k))
    (hw : writes.visibleWrites.CanonicalValues) {opt : Option (Lib.Tree κ ℓ)} (hopt : ∀ t, opt = some t → Canonical t)
    {merge : CompoundWrite κ ℓ} (hm : merge.CanonicalValues) (p : List κ) :
    Returns (applyUserMergeTo c p merge writes opt acc) fun r =>
      Accumulated old r ∧ WrittenRounds old p (userMergeOrder c p merge) (c, acc) r := by
  rw [applyUserMergeTo_eq]
  apply Lib.returns_rounds h
  intro e he u hu
  refine applyUserOverwriteTo_spec hu hold hw hopt ?_ (p ++ e.1)
  rcases List.mem_append.1 he with he | he
  · exact hm.of_mem_writes (List.mem_filter.1 he).1
  · exact hm.of_mem_writes (List.mem_filter.1 he).1

theorem applyServerMergeTo_spec (h : Accumulated old (c, acc)) (hold : ∀ k, Canonical (old k))
    (hw : writes.visibleWrites.CanonicalValues) {merge : CompoundWrite κ ℓ} (hm : merge.CanonicalValues) (p : List κ) :
    Returns (applyServerMergeTo c p merge writes acc) fun r => Accumulated old r ∧
      ((c.cachedServerSnap.isFullyInitialized = false ∧ r.1 = c) ∨ OverwrittenRounds old writes
        c.cachedServerSnap.node (serverMergeOrder c (actualMerge p merge)) (c, acc) r) := by
  cases hempty : c.cachedServerSnap.node.isEmpty && !c.cachedServerSnap.isFullyInitialized with
  | true =>
    unfold applyServerMergeTo
    simp only [hempty, if_true]
    rw [Bool.and_eq_true, Bool.not_eq_true'] at hempty
    exact .pure ⟨h, Or.inl ⟨hempty.2, rfl⟩⟩
  | false =>
    rw [applyServerMergeTo_eq p merge writes acc hempty]
    refine (Lib.returns_rounds h fun e he u hu => ?_).mono fun r hr => ⟨hr.1, Or.inr hr.2⟩
    have hcan := canonicalValues_of_mem (canonicalValues_actualMerge hm p) (mem_serverMergeOrder he)
    exact applyServerOverwriteTo_spec hu hold hw (hcan.applyToNode (h.1.server.child e.1)) [e.1]

/-! ## Answers to local writes -/

/-- A merge of what the server cache has. -/
theorem applyServerMergeTo_repeats (h : Accumulated old (c, acc)) (hold : ∀ k, Canonical (old k))
    (hw : writes.visibleWrites.CanonicalValues) {p : List κ} {merge : CompoundWrite κ ℓ}
    (hm : Repeats (c.cachedServerSnap.node.get p) merge) :
    Returns (applyServerMergeTo c p merge writes acc) fun r => Accumulated old r ∧
      r.1.cachedServerSnap.isFullyInitialized = c.cachedServerSnap.isFullyInitialized ∧
      Same r.1.cachedServerSnap.node c.cachedServerSnap.node ∧
      ((c.cachedServerSnap.isFullyInitialized = false ∧ r.1 = c) ∨ OverwrittenRounds old writes
        c.cachedServerSnap.node (serverMergeOrder c (actualMerge p merge)) (c, acc) r) := by
  refine (applyServerMergeTo_spec h hold hw hm.canonical p).mono fun r hr => ⟨hr.1, ?_, ?_, hr.2⟩
  · rcases hr.2 with ⟨-, hr⟩ | hr
    · rw [hr]
    · exact hr.full
  · rcases hr.2 with ⟨-, hr⟩ | hr
    · rw [hr]
      exact Same.refl _
    · exact hr.same h.1.server hm.actualMerge (fun e he => mem_serverMergeOrder he) (Same.refl _)

theorem ackUserWriteOn_spec (h : Accumulated old (c, acc)) (hold : ∀ k, Canonical (old k))
    (hw : writes.visibleWrites.CanonicalValues) (p : List κ) (affected : ImmutableTree κ Unit) :
    Returns (ackUserWriteOn c p affected writes acc) fun r =>
      Accumulated old r ∧ Acked old writes p affected (c, acc) r := by
  unfold ackUserWriteOn
  apply Returns.ite
  · intro hs
    refine .pure ⟨h, fun _ => rfl, rfl, Same.refl _, fun _ hno => ?_, fun _ hno => ?_⟩ <;>
    · rw [hno] at hs
      cases hs
  · intro hs
    rw [Bool.not_eq_true, Option.isSome_eq_false_iff, Option.isNone_iff_eq_none] at hs
    have hshadow : ∀ {r : Update κ ℓ}, (writes.shadowingWriteAtPath p).isSome = true → r.1 = c := by
      intro r hsome
      rw [hs] at hsome
      cases hsome
    apply Returns.ite
    · intro hv
      apply Returns.ite
      · intro hcomplete
        refine (applyServerOverwriteTo_spec h hold hw (h.1.server.get p) p).mono fun r hr => ⟨hr.1, ?_⟩
        refine ⟨hshadow, ?_, ?_, fun _ _ _ => hr.2, fun _ _ hnone => by rw [hnone] at hv; cases hv⟩
        · -- an answer at the root finds complete data
          rw [hr.2.full]
          cases p with
          | nil => exact (congrArg (· || true) hcomplete).trans hcomplete.symm
          | cons k p => simp
        · rcases hr.2.server with hset | ⟨heq, -⟩
          · exact hset.trans (Lib.Tree.set_same (h.1.server.get p) (Same.refl _))
          · rw [heq]
            exact Same.refl _
      · intro hcomplete
        have hnot : c.cachedServerSnap.isFullyInitialized = false := by
          by_contra hf
          exact hcomplete (CacheNode.isCompleteForPath_of_full (by simpa using hf) p)
        apply Returns.ite
        · intro hp
          rw [List.isEmpty_iff] at hp
          subst hp
          have hmerge := applyServerMergeTo_repeats (p := []) h hold hw (repeats_children h.1.server)
          refine hmerge.mono fun r hr => ⟨hr.1, ?_⟩
          exact Acked.of_not_full hs hr.2.1 hr.2.2.1 hnot
        · intro _
          exact .pure ⟨h, Acked.of_not_full hs rfl (Same.refl _) hnot⟩
    · intro hv
      have hmerge := applyServerMergeTo_repeats h hold hw (repeats_affectedData h.1 p affected)
      refine hmerge.mono fun r hr => ⟨hr.1, ?_⟩
      obtain ⟨-, hfull, hsame, hr⟩ := hr
      rcases hr with ⟨hnot, -⟩ | hr
      · exact Acked.of_not_full hs hfull hsame hnot
      · exact ⟨hshadow, hfull, hsame, fun _ _ hsome => absurd hsome hv, fun _ _ _ => hr⟩

theorem revertedChild_spec (h : Accumulated old (c, acc)) (hold : ∀ k, Canonical (old k))
    (hw : writes.visibleWrites.CanonicalValues) (k : κ) (p : List κ) (b : Bool) :
    Returns (revertedChild c k p writes acc) fun r => Accumulated old (c.updateEventSnap r.1 b, r.2) ∧
      (c.cachedServerSnap.isFullyInitialized = true → ChildRenewed writes c k p r.1) := by
  unfold revertedChild
  dsimp only
  cases hcomplete : c.cachedServerSnap.isCompleteForChild k with
  | true =>
    rw [WriteTreeRef.calculateCompleteChild_of_complete hcomplete]
    have hcan := writes.canonical_applied hw [k] h.1.server
    refine (updateEventChild h hold hcan k p b).mono fun r hr => ⟨hr.2, fun _ => ?_⟩
    rw [hr.1, replaceChild]
    split
    · rename_i hequal
      rw [Bool.and_eq_true, Lib.Tree.isEqual_iff] at hequal
      exact Or.inl ⟨rfl, hequal.1.symm⟩
    · exact Or.inr rfl
  | false =>
    have hnot : ∀ {P : Prop}, c.cachedServerSnap.isFullyInitialized = true → P := by
      intro P hf
      rw [CacheNode.isCompleteForChild, hf] at hcomplete
      cases hcomplete
    cases hchild : writes.calculateCompleteChild k c.cachedServerSnap with
    | some child =>
      have hcan := writes.canonical_calculateCompleteChild hw h.1.server hchild
      exact (updateEventChild h hold hcan k p b).mono fun r hr => ⟨hr.2, hnot⟩
    | none =>
      simp only [Bool.false_eq_true, if_false]
      apply Returns.ite
      · intro _
        exact (updateEventChild h hold .empty k p b).mono fun r hr => ⟨hr.2, hnot⟩
      · intro _
        exact .ok ⟨⟨⟨h.1.event, h.1.server⟩, h.2⟩, hnot⟩

theorem revertedEventCache_spec (h : Accumulated old (c, acc)) (hold : ∀ k, Canonical (old k))
    (hw : writes.visibleWrites.CanonicalValues) {p : List κ} (hs : writes.shadowingWriteAtPath p = none) (b : Bool) :
    Returns (revertedEventCache c p writes acc) fun r => Accumulated old (c.updateEventSnap r.1 b, r.2) ∧
      (c.cachedServerSnap.isFullyInitialized = true → Renewed writes c r.1 p) := by
  have hcan := WriteTreeRef.canonical_calculateCompleteEventCache h.1 hw
  have hcomplete : c.cachedServerSnap.isFullyInitialized = true →
      (writes.calculateCompleteEventCache c.completeServerSnap).getD .empty =
        writes.applied [] c.cachedServerSnap.node := by
    intro hf
    have hroot : writes.shadowingWriteAtPath [] = none := WriteTreeRef.shadowingWriteAtPath_append p (by simpa using hs)
    rw [ViewCache.completeServerSnap, if_pos hf, WriteTreeRef.calculateCompleteEventCache_eq hroot]
    rfl
  unfold revertedEventCache
  cases p with
  | nil =>
    refine (updateEventNode h hold ?_ b).mono fun r hr => ⟨hr.2, fun hf => ?_⟩
    · split
      · exact hcan
      · exact writes.canonical_calculateCompleteEventChildren hw h.1.server
    · rw [hr.1, if_pos hf]
      exact hcomplete hf
  | cons k p =>
    apply (revertedChild_spec h hold hw k p b).bind
    rintro ⟨node, acc'⟩ ⟨hacc, hchild⟩
    apply Returns.ite
    · intro hleaf
      rw [Bool.and_eq_true, Bool.and_eq_true] at hleaf
      refine (updateEventNode hacc hold hcan b).mono fun r hr => ⟨hr.2, fun hf => Or.inr ⟨?_, ?_⟩⟩
      · exact FIndexedFilter.isEmpty_eq_true.1 hleaf.1.1 ▸ hchild hf
      · rw [hr.1]
        exact hcomplete hf
    · intro _
      exact .pure ⟨hacc, fun hf => Or.inl (hchild hf)⟩

theorem revertUserWriteOn_spec (h : Accumulated old (c, acc)) (hold : ∀ k, Canonical (old k))
    (hw : writes.visibleWrites.CanonicalValues) (p : List κ) :
    Returns (revertUserWriteOn c p writes acc) fun r => Accumulated old r ∧ Reverted writes p c r.1 := by
  unfold revertUserWriteOn
  apply Returns.ite
  · intro hs
    refine .pure ⟨h, rfl, fun _ => rfl, fun hno => ?_, fun hno => ?_⟩ <;>
    · rw [hno] at hs
      cases hs
  · intro hs
    rw [Bool.not_eq_true, Option.isSome_eq_false_iff, Option.isNone_iff_eq_none] at hs
    apply (revertedEventCache_spec h hold hw hs _).bind
    rintro ⟨node, acc'⟩ ⟨hacc, hrenewed⟩
    refine .pure ⟨hacc, rfl, fun hsome => ?_, fun _ hf => ?_, fun _ hf => hrenewed hf⟩
    · rw [hs] at hsome
      cases hsome
    · simp [ViewCache.updateEventSnap, hf]

/-! ## All operations -/

theorem listenComplete_spec (h : Accumulated old (c, acc)) (hold : ∀ k, Canonical (old k))
    (hw : writes.visibleWrites.CanonicalValues) (p : List κ) :
    Returns (listenComplete c p writes acc) fun r => Accumulated old r ∧ Regenerated writes p
      (c.updateServerSnap c.cachedServerSnap.node (c.cachedServerSnap.isFullyInitialized || p.isEmpty)) r.1 := by
  have hacc : Accumulated old (c.updateServerSnap c.cachedServerSnap.node
      (c.cachedServerSnap.isFullyInitialized || p.isEmpty), acc) := ⟨⟨h.1.event, h.1.server⟩, h.2⟩
  refine generateEventCacheAfterServerEvent_spec hacc hold hw fun hp => ?_
  simp [ViewCache.updateServerSnap, hp]

/-- **No operation raises**, the changes lead from the old children to the new ones, and complete data from the server
stays complete. -/
theorem applyTo_spec (h : Accumulated old (c, acc)) (hold : ∀ k, Canonical (old k))
    (hw : writes.visibleWrites.CanonicalValues) {opt : Option (Lib.Tree κ ℓ)} (hopt : ∀ t, opt = some t → Canonical t)
    {op : Operation κ ℓ} (hop : op.Sound) : Returns (applyTo c op writes opt acc) fun r => Accumulated old r ∧
      (c.cachedServerSnap.isFullyInitialized = true → r.1.cachedServerSnap.isFullyInitialized = true) := by
  cases op with
  | userOverwrite p snap =>
    refine (applyUserOverwriteTo_spec h hold hw hopt hop p).mono fun r hr => ⟨hr.1, fun hf => ?_⟩
    rw [hr.2.server]
    exact hf
  | userMerge p merge =>
    refine (applyUserMergeTo_spec h hold hw hopt hop p).mono fun r hr => ⟨hr.1, fun hf => ?_⟩
    rw [hr.2.server]
    exact hf
  | serverOverwrite p snap =>
    refine (applyServerOverwriteTo_spec h hold hw hop p).mono fun r hr => ⟨hr.1, fun hf => ?_⟩
    rw [hr.2.full, hf]
    rfl
  | serverMerge p merge =>
    refine (applyServerMergeTo_spec h hold hw hop p).mono fun r hr => ⟨hr.1, fun hf => ?_⟩
    rcases hr.2 with ⟨-, hr⟩ | hr
    · rw [hr]
      exact hf
    · rw [hr.full]
      exact hf
  | ackUserWrite p affected revert =>
    cases revert with
    | false =>
      refine (ackUserWriteOn_spec h hold hw p affected).mono fun r hr => ⟨hr.1, fun hf => ?_⟩
      rw [hr.2.full]
      exact hf
    | true =>
      refine (revertUserWriteOn_spec h hold hw p).mono fun r hr => ⟨hr.1, fun hf => ?_⟩
      rw [hr.2.server]
      exact hf
  | listenComplete p =>
    refine (listenComplete_spec h hold hw p).mono fun r hr => ⟨hr.1, fun hf => ?_⟩
    rw [hr.2.server]
    simp [ViewCache.updateServerSnap, hf]

end FViewProcessor

end ChatApp
