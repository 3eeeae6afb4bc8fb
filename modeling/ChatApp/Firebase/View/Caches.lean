import ChatApp.Firebase.View.Filter
import ChatApp.Firebase.WriteTree

/-!
# The caches of a view

What a client keeps of a place in the database (`FViewCache` of a default query): the data the server has sent
(`cachedServerSnap`) and what is made of it with the pending writes (`cachedEventSnap`), each complete or not.
`FWriteTreeRef` gives the pending writes below the place; what it computes from data of the server is the data with the
writes applied (`WriteTreeRef.applied`).

The queries of the app have no filter, so that nodes are never filtered. The data has no priorities, so that the index
of a default query (`FPriorityIndex`) is the order of the keys.
-/

namespace ChatApp

open Lib.Tree (Same Canonical)
open FIndexedFilter (hasChild isLeafNode)

variable {κ ℓ : Type} [LinearOrder κ]

/-! ## Caches -/

/-- `FCacheNode`. -/
structure CacheNode (κ ℓ : Type) where
  node : Lib.Tree κ ℓ
  isFullyInitialized : Bool

namespace CacheNode

def isCompleteForChild (cache : CacheNode κ ℓ) (childKey : κ) : Bool :=
  cache.isFullyInitialized || hasChild cache.node childKey

def isCompleteForPath (cache : CacheNode κ ℓ) : List κ → Bool
  | [] => cache.isFullyInitialized
  | childKey :: _ => cache.isCompleteForChild childKey

end CacheNode

/-- `FViewCache`. -/
structure ViewCache (κ ℓ : Type) where
  cachedEventSnap : CacheNode κ ℓ
  cachedServerSnap : CacheNode κ ℓ

namespace ViewCache

def updateEventSnap (cache : ViewCache κ ℓ) (eventSnap : Lib.Tree κ ℓ) (isComplete : Bool) : ViewCache κ ℓ :=
  { cache with cachedEventSnap := ⟨eventSnap, isComplete⟩ }

def updateServerSnap (cache : ViewCache κ ℓ) (serverSnap : Lib.Tree κ ℓ) (isComplete : Bool) : ViewCache κ ℓ :=
  { cache with cachedServerSnap := ⟨serverSnap, isComplete⟩ }

def completeEventSnap (cache : ViewCache κ ℓ) : Option (Lib.Tree κ ℓ) :=
  if cache.cachedEventSnap.isFullyInitialized then some cache.cachedEventSnap.node else none

def completeServerSnap (cache : ViewCache κ ℓ) : Option (Lib.Tree κ ℓ) :=
  if cache.cachedServerSnap.isFullyInitialized then some cache.cachedServerSnap.node else none

end ViewCache

/-! ## The pending writes below a path -/

/-- `FWriteTreeRef`. -/
structure WriteTreeRef (κ ℓ : Type) [LinearOrder κ] where
  path : List κ
  writeTree : WriteTree κ ℓ

namespace WriteTreeRef

def visibleWrites (writes : WriteTreeRef κ ℓ) : CompoundWrite κ ℓ := writes.writeTree.visibleWrites

/-- `shadowingWriteAtPath:`. -/
def shadowingWriteAtPath (writes : WriteTreeRef κ ℓ) (path : List κ) : Option (Lib.Tree κ ℓ) :=
  writes.visibleWrites.completeNodeAtPath (writes.path ++ path)

/-- `calculateCompleteEventCacheWithCompleteServerCache:`, all visible writes included. -/
def calculateCompleteEventCache (writes : WriteTreeRef κ ℓ) (completeServerCache : Option (Lib.Tree κ ℓ)) :
    Option (Lib.Tree κ ℓ) :=
  match writes.visibleWrites.completeNodeAtPath writes.path with
  | some shadowingNode => some shadowingNode
  | none =>
    let subMerge := writes.visibleWrites.childCompoundWriteAtPath writes.path
    if subMerge.isEmpty then completeServerCache
    else if completeServerCache.isNone && !subMerge.hasCompleteWriteAtPath [] then none
    else some (subMerge.applyToNode (completeServerCache.getD .empty))

/-- `calculateCompleteEventChildrenWithCompleteServerChildren:`. -/
def calculateCompleteEventChildren (writes : WriteTreeRef κ ℓ) (completeServerChildren : Lib.Tree κ ℓ) :
    Lib.Tree κ ℓ :=
  match writes.visibleWrites.completeNodeAtPath writes.path with
  | some topLevelSet =>
    if isLeafNode topLevelSet then .empty
    else topLevelSet.children.foldl (fun completeChildren c => completeChildren.setChild c.1 c.2) .empty
  | none =>
    let merge := writes.visibleWrites.childCompoundWriteAtPath writes.path
    let completeChildren := completeServerChildren.children.foldl (fun completeChildren c =>
      completeChildren.setChild c.1 ((merge.childCompoundWriteAtPath [c.1]).applyToNode c.2)) .empty
    merge.completeChildren.foldl (fun completeChildren c => completeChildren.setChild c.1 c.2) completeChildren

/-- `calculateEventCacheAfterServerOverwriteWithChildPath:`. -/
def calculateEventCacheAfterServerOverwrite (writes : WriteTreeRef κ ℓ) (childPath : List κ)
    (existingServerSnap : Lib.Tree κ ℓ) : Option (Lib.Tree κ ℓ) :=
  let path := writes.path ++ childPath
  if writes.visibleWrites.hasCompleteWriteAtPath path then none
  else
    let childMerge := writes.visibleWrites.childCompoundWriteAtPath path
    if childMerge.isEmpty then some (existingServerSnap.get childPath)
    else some (childMerge.applyToNode (existingServerSnap.get childPath))

/-- `calculateCompleteChild:cache:`. -/
def calculateCompleteChild (writes : WriteTreeRef κ ℓ) (childKey : κ) (existingServerCache : CacheNode κ ℓ) :
    Option (Lib.Tree κ ℓ) :=
  let path := writes.path ++ [childKey]
  match writes.visibleWrites.completeNodeAtPath path with
  | some shadowingNode => some shadowingNode
  | none =>
    if existingServerCache.isCompleteForChild childKey then
      some ((writes.visibleWrites.childCompoundWriteAtPath path).applyToNode (existingServerCache.node.child childKey))
    else none

end WriteTreeRef

/-! ## Canonical data -/

theorem CacheNode.isCompleteForPath_of_full {cache : CacheNode κ ℓ} (h : cache.isFullyInitialized = true) (p : List κ) :
    cache.isCompleteForPath p = true := by
  cases p with
  | nil => exact h
  | cons k p =>
    rw [isCompleteForPath, isCompleteForChild, h]
    rfl

structure ViewCache.Sound (cache : ViewCache κ ℓ) : Prop where
  event : Canonical cache.cachedEventSnap.node
  server : Canonical cache.cachedServerSnap.node

namespace CompoundWrite

theorem applyToNode_of_isEmpty {cw : CompoundWrite κ ℓ} (h : cw.isEmpty = true) (t : Lib.Tree κ ℓ) :
    cw.applyToNode t = t := by
  rw [applyToNode, ImmutableTree.isEmpty_iff.1 h]
  rfl

theorem CanonicalValues.addWrites {ws : List (List κ × Lib.Tree κ ℓ)} (hws : ∀ w ∈ ws, Canonical w.2)
    {cw : CompoundWrite κ ℓ} (h : cw.CanonicalValues) : (CompoundWrite.addWrites ws cw).CanonicalValues := by
  induction ws generalizing cw with
  | nil => exact h
  | cons w ws ih =>
    obtain ⟨hw, hws⟩ := List.forall_mem_cons.1 hws
    exact ih hws (h.addWrite hw w.1)

end CompoundWrite

namespace WriteTreeRef

variable {writes : WriteTreeRef κ ℓ}

/-- The server's data at a path with the pending writes on it. -/
def applied (writes : WriteTreeRef κ ℓ) (path : List κ) (server : Lib.Tree κ ℓ) : Lib.Tree κ ℓ :=
  (writes.visibleWrites.childCompoundWriteAtPath (writes.path ++ path)).applyToNode (server.get path)

theorem canonical_applied (hw : writes.visibleWrites.CanonicalValues) (p : List κ) {server : Lib.Tree κ ℓ}
    (hs : Canonical server) : Canonical (writes.applied p server) :=
  (hw.childCompoundWriteAtPath _).applyToNode (hs.get p)

theorem calculateEventCacheAfterServerOverwrite_eq {p : List κ} (h : writes.shadowingWriteAtPath p = none)
    (server : Lib.Tree κ ℓ) :
    writes.calculateEventCacheAfterServerOverwrite p server = some (writes.applied p server) := by
  have hshadow : writes.visibleWrites.hasCompleteWriteAtPath (writes.path ++ p) = false := by
    rw [CompoundWrite.hasCompleteWriteAtPath, ← shadowingWriteAtPath, h]
    rfl
  simp only [calculateEventCacheAfterServerOverwrite, hshadow, Bool.false_eq_true, if_false]
  split
  · rename_i hempty
    rw [applied, CompoundWrite.applyToNode_of_isEmpty hempty]
  · rfl

theorem calculateCompleteEventCache_eq (h : writes.shadowingWriteAtPath [] = none) (server : Lib.Tree κ ℓ) :
    writes.calculateCompleteEventCache (some server) = some (writes.applied [] server) := by
  rw [shadowingWriteAtPath, List.append_nil] at h
  simp only [calculateCompleteEventCache, h, applied, List.append_nil, Lib.Tree.get_nil]
  split
  · rename_i hempty
    rw [CompoundWrite.applyToNode_of_isEmpty hempty]
  · rfl

/-- The children that are known are canonical. -/
theorem canonical_calculateCompleteChild (hw : writes.visibleWrites.CanonicalValues) {k : κ}
    {cache : CacheNode κ ℓ} (hs : Canonical cache.node) {child : Lib.Tree κ ℓ}
    (h : writes.calculateCompleteChild k cache = some child) : Canonical child := by
  unfold calculateCompleteChild at h
  dsimp only at h
  split at h
  · rename_i n hn
    cases h
    exact hw.completeNodeAtPath hn
  · split at h
    · cases h
      exact (hw.childCompoundWriteAtPath _).applyToNode (hs.child k)
    · cases h

theorem canonical_foldl_setChild {cs : List (κ × Lib.Tree κ ℓ)} {f : κ × Lib.Tree κ ℓ → Lib.Tree κ ℓ}
    (hcs : ∀ c ∈ cs, Canonical (f c)) {t : Lib.Tree κ ℓ} (ht : Canonical t) :
    Canonical (cs.foldl (fun completeChildren c => completeChildren.setChild c.1 (f c)) t) := by
  induction cs generalizing t with
  | nil => exact ht
  | cons c cs ih =>
    obtain ⟨hc, hcs⟩ := List.forall_mem_cons.1 hcs
    exact ih hcs (ht.setChild hc c.1)

theorem canonical_completeChildren {cw : CompoundWrite κ ℓ} (h : cw.CanonicalValues) :
    ∀ c ∈ cw.completeChildren, Canonical c.2 := by
  intro c hc
  unfold CompoundWrite.completeChildren at hc
  split at hc
  · rename_i n hn
    have hcan : Canonical n := h [] n hn
    rw [← (hcan.child_of_mem hc).1]
    exact hcan.child c.1
  · obtain ⟨d, hd, hv⟩ := List.mem_filterMap.1 hc
    obtain ⟨v, hval, rfl⟩ := Option.map_eq_some_iff.1 hv
    refine h [d.1] v ?_
    rw [ImmutableTree.valueAtPath, cw.leafValues.sorted.lookup_of_mem hd]
    exact hval

theorem canonical_calculateCompleteEventChildren (hw : writes.visibleWrites.CanonicalValues) {server : Lib.Tree κ ℓ}
    (hs : Canonical server) : Canonical (writes.calculateCompleteEventChildren server) := by
  unfold calculateCompleteEventChildren
  split
  · rename_i n hn
    split
    · exact .empty
    · refine canonical_foldl_setChild (fun c hc => ?_) .empty
      have hcan := hw.completeNodeAtPath hn
      rw [← (hcan.child_of_mem hc).1]
      exact hcan.child c.1
  · have hchild := hw.childCompoundWriteAtPath writes.path
    refine canonical_foldl_setChild (canonical_completeChildren hchild)
      (canonical_foldl_setChild (fun c hc => ?_) .empty)
    refine (hchild.childCompoundWriteAtPath [c.1]).applyToNode ?_
    rw [← (hs.child_of_mem hc).1]
    exact hs.child c.1

theorem shadowingWriteAtPath_append {p : List κ} (q : List κ) (h : writes.shadowingWriteAtPath (p ++ q) = none) :
    writes.shadowingWriteAtPath p = none := by
  rw [shadowingWriteAtPath, ← List.append_assoc] at h
  rw [shadowingWriteAtPath]
  cases hn : writes.visibleWrites.completeNodeAtPath (writes.path ++ p) with
  | none => rfl
  | some n =>
    rw [CompoundWrite.completeNodeAtPath_append q hn] at h
    cases h

theorem calculateCompleteChild_of_complete {cache : CacheNode κ ℓ} {k : κ} (h : cache.isCompleteForChild k = true) :
    writes.calculateCompleteChild k cache = some (writes.applied [k] cache.node) := by
  have hne : (writes.path ++ [k]).isEmpty = false := by simp
  unfold calculateCompleteChild
  simp only [applied, CompoundWrite.childCompoundWriteAtPath, hne, Bool.false_eq_true, if_false]
  cases writes.visibleWrites.completeNodeAtPath (writes.path ++ [k]) with
  | some n => rfl
  | none =>
    simp only [h, if_true]
    rfl

theorem canonical_calculateCompleteEventCache {c : ViewCache κ ℓ} (hc : c.Sound)
    (hw : writes.visibleWrites.CanonicalValues) :
    Canonical ((writes.calculateCompleteEventCache c.completeServerSnap).getD .empty) := by
  have hopt : Canonical (c.completeServerSnap.getD .empty) := by
    unfold ViewCache.completeServerSnap
    split
    · exact hc.server
    · exact .empty
  unfold calculateCompleteEventCache
  split
  · rename_i n hn
    exact hw.completeNodeAtPath hn
  · dsimp only
    split
    · exact hopt
    · split
      · exact .empty
      · exact (hw.childCompoundWriteAtPath _).applyToNode hopt

end WriteTreeRef

end ChatApp
