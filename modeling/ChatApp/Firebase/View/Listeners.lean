import ChatApp.Firebase.View.Events

/-!
# Listeners of a view

`FView` keeps the registrations for a place. A new registration is told what is there (`initialEvents`), and every
operation is told to all of them. A listener here is a registration with the events it has received.

- `run_mirrors`: after every run no operation has raised, and the list of each listener for changes of children has the
  children of the event cache in their order, whenever it came;
- `run_value`: the last value event of a listener holds the data of a complete event cache.
-/

namespace ChatApp

open Lib (Assoc.sortKeys Returns)
open Lib.Tree (Same Canonical)
open FEventGenerator (HearsChildren generateEventsForChanges)

variable {κ ℓ : Type} [LinearOrder κ] [DecidableEq ℓ]

/-- A registration, and the events raised for it. -/
structure Listener (κ ℓ : Type) where
  registration : Registration
  received : List (DataEvent κ ℓ)

/-- `FView`. -/
structure View (κ ℓ : Type) where
  viewCache : ViewCache κ ℓ
  listeners : List (Listener κ ℓ)

namespace FView

/-- The events of one listener. -/
def raise (changes : ChangeMap κ ℓ) (valueChange : Option (Lib.Tree κ ℓ)) (eventCache : Lib.Tree κ ℓ)
    (listener : Listener κ ℓ) : Except Fault (Listener κ ℓ) := do
  let events ← generateEventsForChanges listener.registration changes valueChange eventCache
  return { listener with received := listener.received ++ events }

def applyOperation (view : View κ ℓ) (operation : Operation κ ℓ) (writes : WriteTreeRef κ ℓ)
    (optCompleteServerCache : Option (Lib.Tree κ ℓ)) : Except Fault (View κ ℓ) := do
  let (viewCache, changes, valueChange) ←
    FViewProcessor.applyOperationOn view.viewCache operation writes optCompleteServerCache
  if !viewCache.cachedServerSnap.isFullyInitialized && view.viewCache.cachedServerSnap.isFullyInitialized then
    .error (WriteTree.assertion "Once a server snap is complete, it should never go back.")
  else
    let listeners ← view.listeners.mapM (raise changes valueChange viewCache.cachedEventSnap.node)
    return ⟨viewCache, listeners⟩

/-- What `initialEvents:` finds. -/
def initialChanges (node : Lib.Tree κ ℓ) : ChangeMap κ ℓ :=
  (Assoc.sortKeys node.children).map fun c => (c.1, .added c.2)

/-- `addEventRegistration:` with `initialEvents:`. -/
def addEventRegistration (view : View κ ℓ) (registration : Registration) : Except Fault (View κ ℓ) := do
  let eventSnap := view.viewCache.cachedEventSnap
  let valueChange := if eventSnap.isFullyInitialized then some eventSnap.node else none
  let listener ← raise (initialChanges eventSnap.node) valueChange eventSnap.node ⟨registration, []⟩
  return { view with listeners := view.listeners ++ [listener] }

/-- All of them when there is no handle. -/
def removeEventRegistration (view : View κ ℓ) (handle : Option Nat) : View κ ℓ :=
  { view with listeners := view.listeners.filter fun l => handle.any (· ≠ l.registration.handle) }

end FView

namespace View

/-- What happens at a view. -/
inductive Op (κ ℓ : Type) [LinearOrder κ]
  | observe (registration : Registration)
  | removeObserver (handle : Option Nat)
  | apply (operation : Operation κ ℓ) (writes : WriteTreeRef κ ℓ) (optCompleteServerCache : Option (Lib.Tree κ ℓ))

def step (view : View κ ℓ) : Op κ ℓ → Except Fault (View κ ℓ)
  | .observe registration => FView.addEventRegistration view registration
  | .removeObserver handle => .ok (FView.removeEventRegistration view handle)
  | .apply operation writes opt => FView.applyOperation view operation writes opt

def run (view : View κ ℓ) (ops : List (Op κ ℓ)) : Except Fault (View κ ℓ) := ops.foldlM step view

/-- The data of the call is canonical. -/
def Op.Sound : Op κ ℓ → Prop
  | .apply operation writes opt => operation.Sound ∧ writes.visibleWrites.CanonicalValues ∧
      ∀ t, opt = some t → Canonical t
  | _ => True

/-- The data of the last value event. -/
def lastValue (events : List (DataEvent κ ℓ)) : Option (Lib.Tree κ ℓ) :=
  (events.filterMap fun event => match event with
    | .value snapshot => some snapshot
    | _ => none).getLast?

/-- The listener knows what the event cache holds. -/
structure UpToDate (eventSnap : CacheNode κ ℓ) (listener : Listener κ ℓ) : Prop where
  mirrors : HearsChildren listener.registration → Returns (showEvents [] listener.received) (Mirrors · eventSnap.node)
  value : listener.registration.responseTo .value = true → eventSnap.isFullyInitialized = true →
    ∃ shown, lastValue listener.received = some shown ∧ Same shown eventSnap.node

structure Inv (view : View κ ℓ) : Prop where
  sound : view.viewCache.Sound
  listeners : ∀ listener ∈ view.listeners, UpToDate view.viewCache.cachedEventSnap listener

/-! ## Value events -/

omit [LinearOrder κ] [DecidableEq ℓ] in
theorem lastValue_append (events events' : List (DataEvent κ ℓ)) :
    lastValue (events ++ events') = (lastValue events').or (lastValue events) := by
  rw [lastValue, List.filterMap_append, List.getLast?_append]
  rfl

omit [LinearOrder κ] [DecidableEq ℓ] in
theorem lastValue_eq_none {events : List (DataEvent κ ℓ)} (h : ∀ event ∈ events, ∀ node, event ≠ .value node) :
    lastValue events = none := by
  have hnil : (events.filterMap fun event => match event with
      | .value snapshot => some snapshot
      | _ => none) = [] := by
    rw [List.filterMap_eq_nil_iff]
    intro event hevent
    cases event with
    | value node => exact absurd rfl (h _ hevent node)
    | childAdded k x prev => rfl
    | childRemoved k x => rfl
    | childChanged k x prev => rfl
  rw [lastValue, hnil]
  rfl

omit [DecidableEq ℓ] in
/-- Nodes with the same children and no leaf at the top are the same. -/
theorem same_of_children {t u : Lib.Tree κ ℓ} (hroot : t.leaf? = u.leaf?) (h : ∀ k, Same (t.child k) (u.child k)) :
    Same t u := by
  intro q
  cases q with
  | nil => exact hroot
  | cons k q => exact h k q

omit [DecidableEq ℓ] in
/-- Nodes with the same children are the same, when a leaf or an empty node is compared as a whole. -/
theorem same_of_unchanged {old new : Lib.Tree κ ℓ} (hn : Canonical new) (h : ∀ k, Same (old.child k) (new.child k))
    (hleaf : FIndexedFilter.isLeafNode new = true ∨ new.isEmpty = true → Same new old) : Same old new := by
  cases new with
  | leaf l => exact (hleaf (Or.inl rfl)).symm
  | empty => exact (hleaf (Or.inr rfl)).symm
  | node cs =>
    refine same_of_children ?_ h
    cases old with
    | empty => rfl
    | node ds => rfl
    | leaf l =>
      -- the new node has a leaf below a child, the old one has no children
      obtain ⟨q, hq⟩ := hn.exists_leaf (by simp)
      cases q with
      | nil => exact absurd rfl hq
      | cons k q =>
        have := h k q
        rw [Lib.Tree.child_leaf, Lib.Tree.leafAt_empty] at this
        exact absurd this.symm hq

/-- **No value event, no change**: the data of a complete event cache is told or was told before. -/
theorem valueChange_spec {old new : ViewCache κ ℓ} {changes : ChangeMap κ ℓ} (hn : Canonical new.cachedEventSnap.node)
    (ht : Tracks old.cachedEventSnap.node.child new.cachedEventSnap.node.child changes)
    (hf : new.cachedEventSnap.isFullyInitialized = true) :
    FViewProcessor.valueChange old new changes = some new.cachedEventSnap.node ∨
      (FViewProcessor.valueChange old new changes = none ∧ old.cachedEventSnap.isFullyInitialized = true ∧
        Same old.cachedEventSnap.node new.cachedEventSnap.node) := by
  by_cases hold : old.cachedEventSnap.isFullyInitialized = true
  · have hcomplete : old.completeEventSnap = some old.cachedEventSnap.node := by
      rw [ViewCache.completeEventSnap, if_pos hold]
    simp only [FViewProcessor.valueChange, hf, hcomplete, if_true]
    split
    · exact Or.inl rfl
    · rename_i hno
      simp only [Bool.or_eq_true, Bool.not_eq_true', not_or, Bool.not_eq_false, Bool.and_eq_true, not_and] at hno
      obtain ⟨⟨hempty, -⟩, hequal⟩ := hno
      refine Or.inr ⟨rfl, hold, same_of_unchanged hn (fun k => ?_) fun hleaf => Lib.Tree.isEqual_iff.1 (hequal hleaf)⟩
      have := ht.describes k
      rw [List.isEmpty_iff.1 hempty] at this
      exact this
  · exact Or.inl (by simp [FViewProcessor.valueChange, hf, hold])

/-! ## Runs -/

omit [DecidableEq ℓ] in
/-- The events of an operation keep a listener up to date. -/
theorem raise_spec {old : Lib.Tree κ ℓ} {new : CacheNode κ ℓ} {changes : ChangeMap κ ℓ}
    (ht : Tracks old.child new.node.child changes) (ho : Canonical old) (hn : Canonical new.node)
    {valueChange : Option (Lib.Tree κ ℓ)} {listener : Listener κ ℓ}
    (hm : HearsChildren listener.registration → Returns (showEvents [] listener.received) (Mirrors · old))
    (hv : listener.registration.responseTo .value = true → new.isFullyInitialized = true →
      valueChange = some new.node ∨
        valueChange = none ∧ ∃ shown, lastValue listener.received = some shown ∧ Same shown new.node) :
    Returns (FView.raise changes valueChange new.node listener) (UpToDate new) := by
  have hspec := FEventGenerator.generateEventsForChanges_spec ht hn listener.registration valueChange
  obtain ⟨events, hok, childEvents, rfl, hnone, -⟩ := hspec
  refine ⟨{ listener with received := listener.received ++ _ }, by rw [FView.raise, hok]; rfl, ?_, ?_⟩
  · intro hhears
    rw [showEvents, List.foldlM_append]
    apply (hm hhears).bind
    intro shown hshown
    exact FEventGenerator.replay_generateEvents ht ho hn hhears valueChange hok hshown
  · intro hresponds hf
    rw [lastValue_append, lastValue_append, lastValue_eq_none hnone, Option.or_none, FEventGenerator.valueEvents,
      if_pos hresponds]
    rcases hv hresponds hf with rfl | ⟨rfl, shown, hshown, hsame⟩
    · exact ⟨new.node, rfl, Same.refl _⟩
    · exact ⟨shown, hshown, hsame⟩

omit [DecidableEq ℓ] in
theorem tracks_initialChanges {node : Lib.Tree κ ℓ} (h : Canonical node) :
    Tracks (Lib.Tree.empty : Lib.Tree κ ℓ).child node.child (FView.initialChanges node) := by
  constructor
  · rw [FView.initialChanges, Lib.Assoc.Sorted, List.pairwise_map]
    exact Lib.Assoc.sorted_sortKeys node.children
  · intro k
    have hlookup : (FView.initialChanges node).lookup k =
        ((Assoc.sortKeys node.children).lookup k).map ChildChange.added := by
      rw [FView.initialChanges]
      induction Assoc.sortKeys node.children with
      | nil => rfl
      | cons c cs ih =>
        rw [List.map_cons, List.lookup_cons, List.lookup_cons, ih]
        split <;> rfl
    rw [hlookup]
    cases hl : (Assoc.sortKeys node.children).lookup k with
    | none =>
      have hempty : node.child k = .empty := by
        by_contra hne
        have hmem := (FEventGenerator.mem_childKeys h).2 hne
        obtain ⟨c, hc, rfl⟩ := List.mem_map.1 hmem
        rw [(Lib.Assoc.sorted_sortKeys node.children).lookup_of_mem hc] at hl
        cases hl
      rw [hempty]
      exact Same.refl _
    | some x =>
      have hmem := (Lib.Assoc.mem_sortKeys h.keys_nodup).1 (Lib.Assoc.mem_of_lookup hl)
      obtain ⟨hchild, hne⟩ := h.child_of_mem hmem
      change node.child k = x at hchild
      rw [hchild]
      exact ⟨rfl, Same.refl _, hne⟩

omit [DecidableEq ℓ] in
theorem inv_addEventRegistration {view : View κ ℓ} (h : Inv view) (registration : Registration) :
    Returns (FView.addEventRegistration view registration) Inv := by
  have ht := tracks_initialChanges h.sound.event
  apply Returns.bind (raise_spec ht .empty h.sound.event ?_ ?_)
  · intro listener hlistener
    refine .pure ⟨h.sound, fun l hl => ?_⟩
    rcases List.mem_append.1 hl with hl | hl
    · exact h.listeners l hl
    · rw [List.mem_singleton.1 hl]
      exact hlistener
  · intro _
    exact .pure mirrors_nil
  · intro _ hf
    rw [if_pos hf]
    exact Or.inl rfl

theorem inv_applyOperation {view : View κ ℓ} (h : Inv view) {operation : Operation κ ℓ} (hop : operation.Sound)
    {writes : WriteTreeRef κ ℓ} (hw : writes.visibleWrites.CanonicalValues) {opt : Option (Lib.Tree κ ℓ)}
    (hopt : ∀ t, opt = some t → Canonical t) : Returns (FView.applyOperation view operation writes opt) Inv := by
  have hstart : FViewProcessor.Accumulated view.viewCache.cachedEventSnap.node.child (view.viewCache, some []) :=
    ⟨h.sound, [], rfl, Tracks.refl _⟩
  have happly := FViewProcessor.applyTo_spec hstart h.sound.event.child hw hopt hop
  obtain ⟨⟨viewCache, acc⟩, hok, ⟨hsound, changes, rfl, ht⟩, hfull⟩ := happly
  have hon : FViewProcessor.applyOperationOn view.viewCache operation writes opt =
      .ok (viewCache, changes, FViewProcessor.valueChange view.viewCache viewCache changes) := by
    rw [FViewProcessor.applyOperationOn, hok]
    rfl
  rw [FView.applyOperation, hon]
  apply Returns.ite
  · intro hback
    rw [Bool.and_eq_true, Bool.not_eq_true'] at hback
    rw [hfull hback.2] at hback
    cases hback.1
  · intro _
    apply Returns.bind (P := fun listeners => ∀ listener ∈ listeners, UpToDate viewCache.cachedEventSnap listener)
    · apply Lib.returns_mapM_mem
      intro listener hlistener
      have hup := h.listeners listener hlistener
      refine raise_spec ht h.sound.event hsound.event hup.mirrors fun hresponds hf => ?_
      rcases valueChange_spec hsound.event ht hf with htold | ⟨hnone, hold, hsame⟩
      · exact Or.inl htold
      · obtain ⟨shown, hshown, hs⟩ := hup.value hresponds hold
        exact Or.inr ⟨hnone, shown, hshown, hs.trans hsame⟩
    · intro listeners hlisteners
      exact .pure ⟨hsound, hlisteners⟩

theorem inv_step {view : View κ ℓ} (h : Inv view) {op : Op κ ℓ} (hop : op.Sound) : Returns (step view op) Inv := by
  cases op with
  | observe registration => exact inv_addEventRegistration h registration
  | removeObserver handle =>
    exact .ok ⟨h.sound, fun l hl => h.listeners l (List.mem_filter.1 hl).1⟩
  | apply operation writes opt => exact inv_applyOperation h hop.1 hop.2.1 hop.2.2

theorem inv_run {view : View κ ℓ} (h : Inv view) {ops : List (Op κ ℓ)} (hops : ∀ op ∈ ops, op.Sound) :
    Returns (run view ops) Inv := by
  induction ops generalizing view with
  | nil => exact .pure h
  | cons op ops ih =>
    obtain ⟨hop, hops⟩ := List.forall_mem_cons.1 hops
    rw [run, List.foldlM_cons]
    apply (inv_step h hop).bind
    intro view' h'
    exact ih h' hops

omit [DecidableEq ℓ] in
/-- A view that nobody observes yet. -/
theorem inv_init {viewCache : ViewCache κ ℓ} (h : viewCache.Sound) : Inv ⟨viewCache, []⟩ :=
  ⟨h, fun _ hl => absurd hl List.not_mem_nil⟩

/-- A view of which nothing is known yet. -/
def unknown : ViewCache Nat Nat := ⟨⟨.empty, false⟩, ⟨.empty, false⟩⟩

/-- The write tree after a local write. -/
def written : WriteTree Nat Nat :=
  ⟨CompoundWrite.emptyWrite.addWrite (.leaf 8) [0], [⟨0, [0], .overwrite (.leaf 8) true⟩], 0⟩

/-- The server's data arrives, a child is written locally, and another child is removed at the server. -/
def arrivals : List (Op Nat Nat) :=
  [.observe ⟨0, [.childAdded, .childRemoved, .childChanged]⟩,
    .apply (.serverOverwrite [] (.node [(1, .leaf 7)])) ⟨[], .init⟩ none,
    .observe ⟨1, [.value]⟩,
    .apply (.userOverwrite [0] (.leaf 8)) ⟨[], written⟩ none,
    .apply (.serverOverwrite [1] .empty) ⟨[], written⟩ none]

theorem sound_arrivals : ∀ op ∈ arrivals, op.Sound := by
  have hinit : (WriteTree.init : WriteTree Nat Nat).visibleWrites.CanonicalValues :=
    CompoundWrite.canonicalValues_emptyWrite
  have hwritten : written.visibleWrites.CanonicalValues :=
    CompoundWrite.canonicalValues_emptyWrite.addWrite (.leaf 8) [0]
  have hnode : Canonical (.node [(1, .leaf 7)] : Lib.Tree Nat Nat) :=
    .node (by simp) (by simp) (by simp) (by simp [Canonical.leaf])
  have hnone : ∀ t : Lib.Tree Nat Nat, none = some t → Canonical t := by simp
  simp only [arrivals, List.forall_mem_cons]
  exact ⟨trivial, ⟨hnode, hinit, hnone⟩, trivial, ⟨.leaf 8, hwritten, hnone⟩, ⟨.empty, hwritten, hnone⟩, by simp⟩

/-- **Values.** In every run a listener for values knows the data of a complete event cache from its last event. -/
theorem run_value {viewCache : ViewCache κ ℓ} (h : viewCache.Sound) {ops : List (Op κ ℓ)}
    (hops : ∀ op ∈ ops, op.Sound) : Returns (run ⟨viewCache, []⟩ ops) fun view => ∀ listener ∈ view.listeners,
      listener.registration.responseTo .value = true → view.viewCache.cachedEventSnap.isFullyInitialized = true →
        ∃ shown, lastValue listener.received = some shown ∧ Same shown view.viewCache.cachedEventSnap.node :=
  (inv_run (inv_init h) hops).mono fun _ hinv listener hlistener => (hinv.listeners listener hlistener).value

theorem run_value_arrivals :
    (run ⟨unknown, []⟩ arrivals).toOption.map (·.viewCache.cachedEventSnap.isFullyInitialized) = some true ∧
      Returns (run ⟨unknown, []⟩ arrivals) fun view => ∀ listener ∈ view.listeners,
        listener.registration.responseTo .value = true → view.viewCache.cachedEventSnap.isFullyInitialized = true →
          ∃ shown, lastValue listener.received = some shown ∧ Same shown view.viewCache.cachedEventSnap.node :=
  ⟨by decide +kernel, run_value ⟨.empty, .empty⟩ sound_arrivals⟩

end View

end ChatApp
