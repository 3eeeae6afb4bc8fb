import ChatApp.Firebase.View.Caches

/-!
# Operations on a view

`FViewProcessor` brings the caches of a view up to date after every operation (a local write, data from the server, the
answer to a write) and never computes more than it has to: writes that shadow a path spare the work below it, and a
change at a path is put into the old event cache there.

No operation is about a `.priority`: the branches for such paths are left out, as is the clause of
`maybeAddValueFromOldViewCache` that compares priorities. The maps that the code enumerates here (`childCompoundWrites`)
are gone through in the order of the keys.
-/

namespace ChatApp

open FIndexedFilter (hasChild isLeafNode updateChildIn updateFullNode)

variable {κ ℓ : Type} [LinearOrder κ]

/-! ## Operations -/

/-- What a view is told: local writes, data from the server, and the answers to local writes. -/
inductive Operation (κ ℓ : Type) [LinearOrder κ]
  | userOverwrite (path : List κ) (snap : Lib.Tree κ ℓ)
  | userMerge (path : List κ) (children : CompoundWrite κ ℓ)
  | serverOverwrite (path : List κ) (snap : Lib.Tree κ ℓ)
  | serverMerge (path : List κ) (children : CompoundWrite κ ℓ)
  | ackUserWrite (path : List κ) (affectedTree : ImmutableTree κ Unit) (revert : Bool)
  | listenComplete (path : List κ)

namespace CompoundWrite

/-- `childCompoundWrites`. -/
def childCompoundWrites (cw : CompoundWrite κ ℓ) : List (κ × CompoundWrite κ ℓ) :=
  (cw.writeTree.children.map Prod.fst).map fun k => (k, ⟨cw.writeTree.child k, cw.leafValues.child k⟩)

end CompoundWrite

/-! ## The processor -/

namespace FViewProcessor

variable [DecidableEq ℓ]

/-- The view after an operation, and the changes so far. -/
abbrev Update (κ ℓ : Type) := ViewCache κ ℓ × Option (ChangeMap κ ℓ)

/-- `FWriteTreeCompleteChildSource.completeChild:`. -/
def completeChild (writes : WriteTreeRef κ ℓ) (viewCache : ViewCache κ ℓ)
    (optCompleteServerCache : Option (Lib.Tree κ ℓ)) (childKey : κ) : Option (Lib.Tree κ ℓ) :=
  let node := viewCache.cachedEventSnap
  if node.isCompleteForChild childKey then some (node.node.child childKey)
  else
    let serverNode := match optCompleteServerCache with
      | some cache => ⟨cache, true⟩
      | none => viewCache.cachedServerSnap
    writes.calculateCompleteChild childKey serverNode

/-- The new child of the event cache after data from the server at `childKey :: childChangePath`. -/
def newEventChild (viewCache : ViewCache κ ℓ) (writes : WriteTreeRef κ ℓ) (childKey : κ) (childChangePath : List κ) :
    Option (Lib.Tree κ ℓ) :=
  let oldEventSnap := viewCache.cachedEventSnap
  if oldEventSnap.isCompleteForChild childKey then
    match writes.calculateEventCacheAfterServerOverwrite (childKey :: childChangePath)
        viewCache.cachedServerSnap.node with
    | some eventChildUpdate => some ((oldEventSnap.node.child childKey).set childChangePath eventChildUpdate)
    | none => some (oldEventSnap.node.child childKey)
  else writes.calculateCompleteChild childKey viewCache.cachedServerSnap

/-- The event cache after data from the server that no write shadows. -/
def newEventCache (viewCache : ViewCache κ ℓ) (changePath : List κ) (writes : WriteTreeRef κ ℓ)
    (accumulator : Option (ChangeMap κ ℓ)) : Except Fault (Lib.Tree κ ℓ × Option (ChangeMap κ ℓ)) :=
  let oldEventSnap := viewCache.cachedEventSnap
  match changePath with
  | [] =>
    if viewCache.cachedServerSnap.isFullyInitialized then
      updateFullNode oldEventSnap.node
        ((writes.calculateCompleteEventCache viewCache.completeServerSnap).getD .empty) accumulator
    else .error (WriteTree.assertion "If change path is empty, we must have complete server data")
  | childKey :: childChangePath =>
    match newEventChild viewCache writes childKey childChangePath with
    | some child => updateChildIn oldEventSnap.node childKey child childChangePath accumulator
    | none => .ok (oldEventSnap.node, accumulator)

def generateEventCacheAfterServerEvent (viewCache : ViewCache κ ℓ) (changePath : List κ) (writes : WriteTreeRef κ ℓ)
    (accumulator : Option (ChangeMap κ ℓ)) : Except Fault (Update κ ℓ) := do
  if (writes.shadowingWriteAtPath changePath).isSome then return (viewCache, accumulator)
  else
    let (eventCache, accumulator) ← newEventCache viewCache changePath writes accumulator
    let isComplete := viewCache.cachedEventSnap.isFullyInitialized || changePath.isEmpty
    return (viewCache.updateEventSnap eventCache isComplete, accumulator)

/-- The server cache after data from the server. -/
def newServerCache (node : Lib.Tree κ ℓ) (changePath : List κ) (changedSnap : Lib.Tree κ ℓ) :
    Except Fault (Lib.Tree κ ℓ × Option (ChangeMap κ ℓ)) :=
  match changePath with
  | [] => updateFullNode node changedSnap none
  | childKey :: childChangePath =>
    updateChildIn node childKey ((node.child childKey).set childChangePath changedSnap) childChangePath none

def applyServerOverwriteTo (oldViewCache : ViewCache κ ℓ) (changePath : List κ) (changedSnap : Lib.Tree κ ℓ)
    (writes : WriteTreeRef κ ℓ) (accumulator : Option (ChangeMap κ ℓ)) : Except Fault (Update κ ℓ) := do
  let oldServerSnap := oldViewCache.cachedServerSnap
  if !oldServerSnap.isCompleteForPath changePath && decide (1 < changePath.length) then
    -- updates of incomplete nodes are intended for other listeners
    return (oldViewCache, accumulator)
  else
    let (serverCache, _) ← newServerCache oldServerSnap.node changePath changedSnap
    let newViewCache := oldViewCache.updateServerSnap serverCache
      (oldServerSnap.isFullyInitialized || changePath.isEmpty)
    generateEventCacheAfterServerEvent newViewCache changePath writes accumulator

def applyUserOverwriteTo (oldViewCache : ViewCache κ ℓ) (changePath : List κ) (changedSnap : Lib.Tree κ ℓ)
    (writes : WriteTreeRef κ ℓ) (optCompleteCache : Option (Lib.Tree κ ℓ)) (accumulator : Option (ChangeMap κ ℓ)) :
    Except Fault (Update κ ℓ) := do
  let oldEventSnap := oldViewCache.cachedEventSnap
  match changePath with
  | [] =>
    let (newEventCache, accumulator) ← updateFullNode oldEventSnap.node changedSnap accumulator
    return (oldViewCache.updateEventSnap newEventCache true, accumulator)
  | childKey :: childChangePath =>
    let oldChild := oldEventSnap.node.child childKey
    let newChild :=
      if childChangePath.isEmpty then changedSnap
      else match completeChild writes oldViewCache optCompleteCache childKey with
        | some childNode => childNode.set childChangePath changedSnap
        | none => .empty
    if oldChild.isEqual newChild then return (oldViewCache, accumulator)
    else
      let (newEventSnap, accumulator) ← updateChildIn oldEventSnap.node childKey newChild childChangePath accumulator
      return (oldViewCache.updateEventSnap newEventSnap oldEventSnap.isFullyInitialized, accumulator)

/-- `cache:hasChild:` for the first component of a path. -/
def cacheHasChild (viewCache : ViewCache κ ℓ) (path : List κ) : Bool :=
  viewCache.cachedEventSnap.isCompleteForPath path

/-- The writes are gone through twice: first those of children in view. -/
def applyUserMergeTo (viewCache : ViewCache κ ℓ) (path : List κ) (changedChildren : CompoundWrite κ ℓ)
    (writes : WriteTreeRef κ ℓ) (serverCache : Option (Lib.Tree κ ℓ)) (accumulator : Option (ChangeMap κ ℓ)) :
    Except Fault (Update κ ℓ) := do
  let overwrite (cur : Update κ ℓ) (e : List κ × Lib.Tree κ ℓ) : Except Fault (Update κ ℓ) :=
    applyUserOverwriteTo cur.1 (path ++ e.1) e.2 writes serverCache cur.2
  let cur ← changedChildren.writes.foldlM (fun cur e =>
    if cacheHasChild viewCache (path ++ e.1) then overwrite cur e else pure cur) (viewCache, accumulator)
  changedChildren.writes.foldlM (fun cur e =>
    if !cacheHasChild viewCache (path ++ e.1) then overwrite cur e else pure cur) cur

/-- The children are gone through twice, each time in the order of their keys where the source has a dictionary's:
first those that the server cache has. -/
def applyServerMergeTo (viewCache : ViewCache κ ℓ) (path : List κ) (changedChildren : CompoundWrite κ ℓ)
    (writes : WriteTreeRef κ ℓ) (accumulator : Option (ChangeMap κ ℓ)) : Except Fault (Update κ ℓ) := do
  let serverSnap := viewCache.cachedServerSnap
  if serverSnap.node.isEmpty && !serverSnap.isFullyInitialized then return (viewCache, accumulator)
  else
    let actualMerge := if path.isEmpty then changedChildren
      else CompoundWrite.emptyWrite.addCompoundWrite changedChildren path
    let overwrite (cur : Update κ ℓ) (c : κ × CompoundWrite κ ℓ) : Except Fault (Update κ ℓ) :=
      applyServerOverwriteTo cur.1 [c.1] (c.2.applyToNode (serverSnap.node.child c.1)) writes cur.2
    let cur ← actualMerge.childCompoundWrites.foldlM (fun cur c =>
      if hasChild serverSnap.node c.1 then overwrite cur c else pure cur) (viewCache, accumulator)
    actualMerge.childCompoundWrites.foldlM (fun cur c =>
      let isUnknownDeepMerge := !serverSnap.isCompleteForChild c.1 && c.2.rootWrite.isNone
      if !hasChild serverSnap.node c.1 && !isUnknownDeepMerge then overwrite cur c else pure cur) cur

/-- The server cache at the affected paths is applied again, now that the write does not shadow it any more. -/
def ackUserWriteOn (viewCache : ViewCache κ ℓ) (ackPath : List κ) (affectedTree : ImmutableTree κ Unit)
    (writes : WriteTreeRef κ ℓ) (accumulator : Option (ChangeMap κ ℓ)) : Except Fault (Update κ ℓ) := do
  let serverCache := viewCache.cachedServerSnap
  if (writes.shadowingWriteAtPath ackPath).isSome then return (viewCache, accumulator)
  else if affectedTree.value.isSome then
    if serverCache.isCompleteForPath ackPath then
      applyServerOverwriteTo viewCache ackPath (serverCache.node.get ackPath) writes accumulator
    else if ackPath.isEmpty then
      let changedChildren := serverCache.node.children.foldl (fun cw c => cw.addWrite c.2 [c.1])
        CompoundWrite.emptyWrite
      applyServerMergeTo viewCache ackPath changedChildren writes accumulator
    else return (viewCache, accumulator)
  else
    let changedChildren := affectedTree.forEach.foldl (fun cw e =>
      if serverCache.isCompleteForPath (ackPath ++ e.1) then cw.addWrite (serverCache.node.get (ackPath ++ e.1)) e.1
      else cw) CompoundWrite.emptyWrite
    applyServerMergeTo viewCache ackPath changedChildren writes accumulator

/-- The event cache with one child as it is without the write that was taken back. -/
def revertedChild (viewCache : ViewCache κ ℓ) (childKey : κ) (childPath : List κ) (writes : WriteTreeRef κ ℓ)
    (accumulator : Option (ChangeMap κ ℓ)) : Except Fault (Lib.Tree κ ℓ × Option (ChangeMap κ ℓ)) :=
  let oldEventCache := viewCache.cachedEventSnap.node
  let serverSnap := viewCache.cachedServerSnap
  let newChild := match writes.calculateCompleteChild childKey serverSnap with
    | some child => some child
    | none => if serverSnap.isCompleteForChild childKey then some (oldEventCache.child childKey) else none
  match newChild with
  | some child => updateChildIn oldEventCache childKey child childPath accumulator
  | none =>
    if hasChild oldEventCache childKey then updateChildIn oldEventCache childKey .empty childPath accumulator
    else .ok (oldEventCache, accumulator)

/-- The event cache without a write at `path` that was taken back. -/
def revertedEventCache (viewCache : ViewCache κ ℓ) (path : List κ) (writes : WriteTreeRef κ ℓ)
    (accumulator : Option (ChangeMap κ ℓ)) : Except Fault (Lib.Tree κ ℓ × Option (ChangeMap κ ℓ)) := do
  let serverSnap := viewCache.cachedServerSnap
  let complete := (writes.calculateCompleteEventCache viewCache.completeServerSnap).getD .empty
  match path with
  | [] =>
    let newNode := if serverSnap.isFullyInitialized then complete
      else writes.calculateCompleteEventChildren serverSnap.node
    updateFullNode viewCache.cachedEventSnap.node newNode accumulator
  | childKey :: childPath =>
    let (eventCache, accumulator) ← revertedChild viewCache childKey childPath writes accumulator
    if eventCache.isEmpty && serverSnap.isFullyInitialized && isLeafNode complete then
      -- the reverted write may have been on a leaf
      updateFullNode eventCache complete accumulator
    else return (eventCache, accumulator)

def revertUserWriteOn (viewCache : ViewCache κ ℓ) (path : List κ) (writes : WriteTreeRef κ ℓ)
    (accumulator : Option (ChangeMap κ ℓ)) : Except Fault (Update κ ℓ) := do
  if (writes.shadowingWriteAtPath path).isSome then return (viewCache, accumulator)
  else
    let (newEventCache, accumulator) ← revertedEventCache viewCache path writes accumulator
    let complete := viewCache.cachedServerSnap.isFullyInitialized || (writes.shadowingWriteAtPath []).isSome
    return (viewCache.updateEventSnap newEventCache complete, accumulator)

def listenComplete (viewCache : ViewCache κ ℓ) (path : List κ) (writes : WriteTreeRef κ ℓ)
    (accumulator : Option (ChangeMap κ ℓ)) : Except Fault (Update κ ℓ) :=
  let oldServerNode := viewCache.cachedServerSnap
  let newViewCache := viewCache.updateServerSnap oldServerNode.node (oldServerNode.isFullyInitialized || path.isEmpty)
  generateEventCacheAfterServerEvent newViewCache path writes accumulator

/-- The view after an operation. -/
def applyTo (oldViewCache : ViewCache κ ℓ) (operation : Operation κ ℓ) (writes : WriteTreeRef κ ℓ)
    (optCompleteCache : Option (Lib.Tree κ ℓ)) (accumulator : Option (ChangeMap κ ℓ)) : Except Fault (Update κ ℓ) :=
  match operation with
  | .userOverwrite path snap => applyUserOverwriteTo oldViewCache path snap writes optCompleteCache accumulator
  | .userMerge path children => applyUserMergeTo oldViewCache path children writes optCompleteCache accumulator
  | .serverOverwrite path snap => applyServerOverwriteTo oldViewCache path snap writes accumulator
  | .serverMerge path children => applyServerMergeTo oldViewCache path children writes accumulator
  | .ackUserWrite path affectedTree false => ackUserWriteOn oldViewCache path affectedTree writes accumulator
  | .ackUserWrite path _ true => revertUserWriteOn oldViewCache path writes accumulator
  | .listenComplete path => listenComplete oldViewCache path writes accumulator

/-- `maybeAddValueFromOldViewCache:newViewCache:changes:`. -/
def valueChange (oldViewCache newViewCache : ViewCache κ ℓ) (changes : ChangeMap κ ℓ) : Option (Lib.Tree κ ℓ) :=
  let eventSnap := newViewCache.cachedEventSnap
  if eventSnap.isFullyInitialized then
    let isLeafOrEmpty := isLeafNode eventSnap.node || eventSnap.node.isEmpty
    let isEqual := match oldViewCache.completeEventSnap with
      | some node => eventSnap.node.isEqual node
      | none => false
    if !changes.isEmpty || !oldViewCache.cachedEventSnap.isFullyInitialized || (isLeafOrEmpty && !isEqual) then
      some eventSnap.node
    else none
  else none

/-- `applyOperationOn:`: the new view, the changes of children and the change of the value. -/
def applyOperationOn (oldViewCache : ViewCache κ ℓ) (operation : Operation κ ℓ) (writes : WriteTreeRef κ ℓ)
    (optCompleteCache : Option (Lib.Tree κ ℓ)) :
    Except Fault (ViewCache κ ℓ × ChangeMap κ ℓ × Option (Lib.Tree κ ℓ)) := do
  let (newViewCache, accumulator) ← applyTo oldViewCache operation writes optCompleteCache (some [])
  let changes := accumulator.getD []
  return (newViewCache, changes, valueChange oldViewCache newViewCache changes)

end FViewProcessor

end ChatApp
