import ChatApp.Firebase.View.Effects
import Mathlib.Data.List.Forall2

/-!
# Events

`FEventGenerator` turns the changes of a view into events for its registrations: first the children that are gone, then
the new and the changed ones, each in the order of their keys and with the key before it (`prevName`), then the value.
The index of a default query is by priority; the data here has none, and then the index is the order of the keys.

- `generateEventsForChanges_spec`: the events of a registration follow the changes in this order;
- `replay_generateEvents`: a listener that keeps an ordered list, and puts a new child after `prevName`, has the
  children of the event cache in their order after the events of an operation, and `prevName` is always in its list.
-/

namespace ChatApp

open Lib (Assoc.insertKey Assoc.removeKey Assoc.Sorted Assoc.sortKeys Assoc.insertAfter Returns)
open Lib.Tree (Same Canonical)

variable {κ ℓ : Type} [LinearOrder κ]

/-- `FIRDataEventType`. Without priorities no child is moved. -/
inductive EventType
  | childAdded
  | childRemoved
  | childChanged
  | value
  deriving DecidableEq

/-- `FDataEvent`. -/
inductive DataEvent (κ ℓ : Type)
  | childAdded (key : κ) (snapshot : Lib.Tree κ ℓ) (prevName : Option κ)
  | childRemoved (key : κ) (snapshot : Lib.Tree κ ℓ)
  | childChanged (key : κ) (snapshot : Lib.Tree κ ℓ) (prevName : Option κ)
  | value (snapshot : Lib.Tree κ ℓ)

/-- `FChildEventRegistration` and `FValueEventRegistration`: the events with a callback. -/
structure Registration where
  handle : Nat
  callbacks : List EventType

def Registration.responseTo (registration : Registration) (eventType : EventType) : Bool :=
  decide (eventType ∈ registration.callbacks)

def ChildChange.type : ChildChange κ ℓ → EventType
  | .added _ => .childAdded
  | .removed _ => .childRemoved
  | .changed _ _ => .childChanged

/-! ## The generator -/

namespace FEventGenerator

/-- The keys of the children in their order. -/
def childKeys (node : Lib.Tree κ ℓ) : List κ := (Assoc.sortKeys node.children).map Prod.fst

/-- `predecessorForChildKey:`. The exception is that of a dictionary kept in a tree; one kept in an array has a text of
its own ("Can't get predecessor key for non-existent key"). No event asks for the predecessor of a missing key. -/
def predecessorForChildKey (eventCache : Lib.Tree κ ℓ) (childKey : κ) : Except Fault (Option κ) :=
  if FIndexedFilter.isLeafNode eventCache then .ok none
  else if (childKeys eventCache).contains childKey then .ok ((childKeys eventCache).filter (· < childKey)).getLast?
  else .error (.exception "NonexistentKey" "getPredecessorKey called with nonexistent key.")

def generateEventForChange (eventCache : Lib.Tree κ ℓ) (childKey : κ) (change : ChildChange κ ℓ) :
    Except Fault (DataEvent κ ℓ) := do
  match change with
  | .removed node => return .childRemoved childKey node
  | .added node => return .childAdded childKey node (← predecessorForChildKey eventCache childKey)
  | .changed node _ => return .childChanged childKey node (← predecessorForChildKey eventCache childKey)

/-- The changes of one type, sorted. -/
def changesOf (eventType : EventType) (changes : ChangeMap κ ℓ) : ChangeMap κ ℓ :=
  Assoc.sortKeys (changes.filter fun c => c.2.type = eventType)

/-- `generateEvents:forType:changes:eventCache:eventRegistrations:`, for one of the registrations. -/
def generateEvents (registration : Registration) (eventType : EventType) (changes : ChangeMap κ ℓ)
    (eventCache : Lib.Tree κ ℓ) : Except Fault (List (DataEvent κ ℓ)) :=
  if registration.responseTo eventType then
    (changesOf eventType changes).mapM fun c => generateEventForChange eventCache c.1 c.2
  else .ok []

def generateEventsForChanges (registration : Registration) (changes : ChangeMap κ ℓ)
    (valueChange : Option (Lib.Tree κ ℓ)) (eventCache : Lib.Tree κ ℓ) : Except Fault (List (DataEvent κ ℓ)) := do
  let removed ← generateEvents registration .childRemoved changes eventCache
  let added ← generateEvents registration .childAdded changes eventCache
  let changed ← generateEvents registration .childChanged changes eventCache
  let value := if registration.responseTo .value then (valueChange.map DataEvent.value).toList else []
  return removed ++ added ++ changed ++ value

end FEventGenerator

/-! ## Listeners -/

/-- What a listener with an ordered list makes of an event. -/
def showEvent (shown : List (κ × Lib.Tree κ ℓ)) : DataEvent κ ℓ → Except Fault (List (κ × Lib.Tree κ ℓ))
  | .childAdded key snapshot prevName =>
    match Assoc.insertAfter prevName key snapshot shown with
    | some shown => .ok shown
    | none => .error .indexOutOfRange
  | .childRemoved key _ => .ok (Assoc.removeKey key shown)
  | .childChanged key snapshot _ => .ok (shown.map fun c => if c.1 = key then (key, snapshot) else c)
  | .value _ => .ok shown

def showEvents (shown : List (κ × Lib.Tree κ ℓ)) (events : List (DataEvent κ ℓ)) :
    Except Fault (List (κ × Lib.Tree κ ℓ)) := events.foldlM showEvent shown

/-- An entry of the list and the child it stands for. -/
def MirrorsChild : Option (Lib.Tree κ ℓ) → Lib.Tree κ ℓ → Prop
  | none, child => child = .empty
  | some entry, child => Same entry child ∧ child ≠ .empty

/-- The list has the children of the node, in their order. -/
structure Mirrors (shown : List (κ × Lib.Tree κ ℓ)) (node : Lib.Tree κ ℓ) : Prop where
  sorted : Assoc.Sorted shown
  children : ∀ k, MirrorsChild (shown.lookup k) (node.child k)

theorem mirrors_nil : Mirrors [] (.empty : Lib.Tree κ ℓ) := ⟨Lib.Assoc.sorted_nil, fun _ => rfl⟩

/-! ## The events of one operation -/

namespace FEventGenerator

/-- The child before `k` among those of the node. -/
def IsPredecessor (node : Lib.Tree κ ℓ) (k : κ) : Option κ → Prop
  | none => ∀ j, node.child j ≠ .empty → k ≤ j
  | some j => j < k ∧ node.child j ≠ .empty ∧ ∀ i, node.child i ≠ .empty → i ≤ j ∨ k ≤ i

theorem mem_childKeys {node : Lib.Tree κ ℓ} (h : Canonical node) {k : κ} :
    k ∈ childKeys node ↔ node.child k ≠ .empty := by
  constructor
  · intro hk
    obtain ⟨c, hc, rfl⟩ := List.mem_map.1 hk
    obtain ⟨hchild, hne⟩ := h.child_of_mem ((Lib.Assoc.mem_sortKeys h.keys_nodup).1 hc)
    rw [hchild]
    exact hne
  · intro hne
    by_contra hk
    refine hne (Lib.Tree.child_eq_empty fun hmem => hk ?_)
    obtain ⟨c, hc, rfl⟩ := List.mem_map.1 hmem
    exact List.mem_map.2 ⟨c, (Lib.Assoc.mem_sortKeys h.keys_nodup).2 hc, rfl⟩

theorem predecessorForChildKey_spec {node : Lib.Tree κ ℓ} (h : Canonical node) {k : κ} (hk : node.child k ≠ .empty) :
    Returns (predecessorForChildKey node k) (IsPredecessor node k) := by
  have hleaf : FIndexedFilter.isLeafNode node = false := by
    cases node with
    | leaf l => exact absurd rfl hk
    | empty => rfl
    | node cs => rfl
  unfold predecessorForChildKey
  rw [hleaf, if_neg Bool.false_ne_true, if_pos (List.contains_iff_mem.2 ((mem_childKeys h).2 hk))]
  refine .ok ?_
  have hsorted : (childKeys node).Pairwise (· < ·) := List.pairwise_map.2 (Lib.Assoc.sorted_sortKeys node.children)
  have hmem : ∀ j, j ∈ (childKeys node).filter (· < k) ↔ node.child j ≠ .empty ∧ j < k := by
    intro j
    rw [List.mem_filter, mem_childKeys h, decide_eq_true_eq]
  rcases List.eq_nil_or_concat ((childKeys node).filter (· < k)) with hnil | ⟨js, j, hjs⟩
  · rw [hnil]
    intro j hj
    by_contra hlt
    have := (hmem j).2 ⟨hj, not_le.1 hlt⟩
    rw [hnil] at this
    cases this
  · have hpair := hsorted.filter (· < k)
    rw [hjs, List.concat_eq_append, List.pairwise_append] at hpair
    have hj := (hmem j).1 (by rw [hjs]; simp)
    rw [hjs, List.concat_eq_append, List.getLast?_concat]
    refine ⟨hj.2, hj.1, fun i hi => ?_⟩
    rcases lt_or_ge i k with hik | hik
    · have := (hmem i).2 ⟨hi, hik⟩
      rw [hjs, List.concat_eq_append, List.mem_append, List.mem_singleton] at this
      rcases this with hi' | rfl
      · exact Or.inl (hpair.2.2 i hi' j List.mem_cons_self).le
      · exact Or.inl le_rfl
    · exact Or.inr hik

/-- The changes in the order of their events. -/
def ordered (changes : ChangeMap κ ℓ) : ChangeMap κ ℓ :=
  changesOf .childRemoved changes ++ changesOf .childAdded changes ++ changesOf .childChanged changes

section Ordered

variable {changes : ChangeMap κ ℓ} (hs : Assoc.Sorted changes)
include hs

theorem mem_changesOf {t : EventType} {c : κ × ChildChange κ ℓ} :
    c ∈ changesOf t changes ↔ changes.lookup c.1 = some c.2 ∧ c.2.type = t := by
  have hsub := hs.sublist (List.filter_sublist (p := fun c => decide (c.2.type = t)))
  rw [changesOf, Lib.Assoc.mem_sortKeys (Lib.Assoc.nodup_keys hsub), List.mem_filter, decide_eq_true_eq,
    hs.lookup_eq_some]

theorem mem_ordered {c : κ × ChildChange κ ℓ} : c ∈ ordered changes ↔ changes.lookup c.1 = some c.2 := by
  simp only [ordered, List.mem_append, mem_changesOf hs]
  cases hc : c.2 <;> simp [ChildChange.type]

end Ordered

/-- Removed children come first, and new ones before changed ones. -/
def rank : EventType → Nat
  | .childRemoved => 0
  | .childAdded => 1
  | .childChanged => 2
  | .value => 3

/-- The order of the events. -/
def Before (c d : κ × ChildChange κ ℓ) : Prop :=
  rank c.2.type < rank d.2.type ∨ (c.2.type = d.2.type ∧ c.1 < d.1)

theorem pairwise_ordered {changes : ChangeMap κ ℓ} (hs : Assoc.Sorted changes) : (ordered changes).Pairwise Before := by
  have htype : ∀ {t : EventType} {c : κ × ChildChange κ ℓ}, c ∈ changesOf t changes → c.2.type = t :=
    fun hc => ((mem_changesOf hs).1 hc).2
  have hown : ∀ t : EventType, (changesOf t changes).Pairwise Before := by
    intro t
    refine (Lib.Assoc.sorted_sortKeys _).imp_of_mem fun hc hd hlt => Or.inr ⟨?_, hlt⟩
    exact (htype hc).trans (htype hd).symm
  have hbetween : ∀ {t u : EventType}, rank t < rank u → ∀ c ∈ changesOf t changes, ∀ d ∈ changesOf u changes,
      Before c d := by
    intro t u htu c hc d hd
    left
    rw [htype hc, htype hd]
    exact htu
  rw [ordered, List.pairwise_append, List.pairwise_append]
  refine ⟨⟨hown _, hown _, hbetween (by decide)⟩, hown _, fun c hc => ?_⟩
  rcases List.mem_append.1 hc with hc | hc
  · exact hbetween (by decide) c hc
  · exact hbetween (by decide) c hc

theorem nodup_ordered {changes : ChangeMap κ ℓ} (hs : Assoc.Sorted changes) :
    ((ordered changes).map Prod.fst).Nodup := by
  rw [List.Nodup, List.pairwise_map]
  refine (pairwise_ordered hs).imp_of_mem fun {c d} hc hd hbefore he => ?_
  rw [mem_ordered hs] at hc hd
  rw [he, hd, Option.some.injEq] at hc
  rcases hbefore with hlt | ⟨-, hlt⟩
  · rw [hc] at hlt
    exact lt_irrefl _ hlt
  · rw [he] at hlt
    exact lt_irrefl _ hlt

theorem lookup_ordered {changes : ChangeMap κ ℓ} (hs : Assoc.Sorted changes) (k : κ) :
    (ordered changes).lookup k = changes.lookup k := by
  refine Option.ext fun change => ?_
  rw [Lib.Assoc.lookup_eq_some_iff_mem (nodup_ordered hs), mem_ordered hs]

/-- The event of a change. -/
def EventOf (node : Lib.Tree κ ℓ) (c : κ × ChildChange κ ℓ) (event : DataEvent κ ℓ) : Prop :=
  match c.2 with
  | .removed snapshot => event = .childRemoved c.1 snapshot
  | .added snapshot => ∃ prev, IsPredecessor node c.1 prev ∧ event = .childAdded c.1 snapshot prev
  | .changed snapshot _ => ∃ prev, event = .childChanged c.1 snapshot prev

/-- What a change leaves in the list. -/
def shown : ChildChange κ ℓ → Option (Lib.Tree κ ℓ)
  | .added node => some node
  | .removed _ => none
  | .changed node _ => some node

/-- A list after some of the changes. -/
structure ShownAfter (base : List (κ × Lib.Tree κ ℓ)) (done : ChangeMap κ ℓ) (list : List (κ × Lib.Tree κ ℓ)) :
    Prop where
  sorted : Assoc.Sorted list
  lookup : ∀ k, list.lookup k = match done.lookup k with
    | some change => shown change
    | none => base.lookup k

theorem ShownAfter.concat {base list list' : List (κ × Lib.Tree κ ℓ)} {done : ChangeMap κ ℓ}
    {c : κ × ChildChange κ ℓ} (h : ShownAfter base done list) (hc : done.lookup c.1 = none) (hs : Assoc.Sorted list')
    (hself : list'.lookup c.1 = shown c.2) (hother : ∀ j, j ≠ c.1 → list'.lookup j = list.lookup j) :
    ShownAfter base (done ++ [c]) list' := by
  refine ⟨hs, fun k => ?_⟩
  obtain ⟨i, change⟩ := c
  by_cases hk : k = i
  · subst hk
    rw [List.lookup_append, hc, hself]
    simp
  · have hne : (k == i) = false := by simpa using hk
    rw [hother k hk, h.lookup, List.lookup_append, List.lookup_cons, hne]
    simp

section Operation

variable {old new : Lib.Tree κ ℓ} {changes : ChangeMap κ ℓ} {base : List (κ × Lib.Tree κ ℓ)}

theorem generateEventForChange_spec (ht : Tracks old.child new.child changes) (hn : Canonical new)
    {c : κ × ChildChange κ ℓ} (hc : changes.lookup c.1 = some c.2) :
    Returns (generateEventForChange new c.1 c.2) (EventOf new c) := by
  have hd := ht.describes c.1
  rw [hc] at hd
  unfold generateEventForChange EventOf
  cases hc2 : c.2 with
  | removed n => exact .pure rfl
  | added n =>
    rw [hc2] at hd
    apply (predecessorForChildKey_spec hn hd.2.2).bind
    intro prev hprev
    exact .pure ⟨prev, hprev, rfl⟩
  | changed n o =>
    rw [hc2] at hd
    apply (predecessorForChildKey_spec hn hd.2.2.2).bind
    intro prev _
    exact .pure ⟨prev, rfl⟩

-- the changes `done` have been shown, `c` is next and the rest follows
variable {done rest : ChangeMap κ ℓ} {c : κ × ChildChange κ ℓ} {list : List (κ × Lib.Tree κ ℓ)}

theorem mem_done (hs : Assoc.Sorted changes) (hsplit : done ++ c :: rest = ordered changes)
    {d : κ × ChildChange κ ℓ} (hd : changes.lookup d.1 = some d.2) (hne : d.1 ≠ c.1) (hnot : ¬Before c d) :
    d ∈ done := by
  have hmem := (mem_ordered hs).2 hd
  have hpair := pairwise_ordered hs
  rw [← hsplit, List.mem_append, List.mem_cons] at hmem
  rw [← hsplit, List.pairwise_append, List.pairwise_cons] at hpair
  rcases hmem with hmem | rfl | hmem
  · exact hmem
  · exact absurd rfl hne
  · exact absurd (hpair.2.1.1 d hmem) hnot

theorem lookup_done (hs : Assoc.Sorted changes) (hsplit : done ++ c :: rest = ordered changes) {k : κ}
    {change : ChildChange κ ℓ} : done.lookup k = some change ↔ (k, change) ∈ done := by
  have hnd := nodup_ordered hs
  rw [← hsplit, List.map_append] at hnd
  exact Lib.Assoc.lookup_eq_some_iff_mem (List.nodup_append.1 hnd).1

theorem lookup_of_mem_done (hs : Assoc.Sorted changes) (hsplit : done ++ c :: rest = ordered changes)
    {d : κ × ChildChange κ ℓ} (hd : d ∈ done) : changes.lookup d.1 = some d.2 := by
  rw [← mem_ordered hs, ← hsplit]
  exact List.mem_append_left _ hd

theorem lookup_done_self (hs : Assoc.Sorted changes) (hsplit : done ++ c :: rest = ordered changes) :
    done.lookup c.1 = none := by
  rw [Option.eq_none_iff_forall_ne_some]
  intro change hchange
  rw [lookup_done hs hsplit] at hchange
  have hnd := nodup_ordered hs
  rw [← hsplit, List.map_append, List.nodup_append] at hnd
  exact hnd.2.2 c.1 (List.mem_map.2 ⟨_, hchange, rfl⟩) c.1 (by simp) rfl

/-- A child that is in the list is still there, once the removed ones are gone. -/
theorem child_ne_empty (ht : Tracks old.child new.child changes) (ho : Canonical old) (hb : Mirrors base old)
    (hsplit : done ++ c :: rest = ordered changes) (hc : c.2.type = .childAdded) (h : ShownAfter base done list) {k : κ}
    (hk : list.lookup k ≠ none) (hkc : k ≠ c.1) : new.child k ≠ .empty := by
  have hdescribes := ht.describes k
  rw [h.lookup k] at hk
  cases hdone : done.lookup k with
  | some change =>
    rw [lookup_done ht.sorted hsplit] at hdone
    rw [lookup_of_mem_done ht.sorted hsplit hdone] at hdescribes
    rw [(lookup_done ht.sorted hsplit).2 hdone] at hk
    cases change with
    | added n => exact hdescribes.2.2
    | removed n => exact absurd rfl hk
    | changed n o => exact hdescribes.2.2.2
  | none =>
    rw [hdone] at hk
    have hold : old.child k ≠ .empty := by
      have := hb.children k
      cases hl : base.lookup k with
      | none => exact absurd hl hk
      | some x =>
        rw [hl] at this
        exact this.2
    cases hchange : changes.lookup k with
    | none =>
      rw [hchange] at hdescribes
      exact ne_empty_of_same (ho.child k) hdescribes.symm hold
    | some change =>
      rw [hchange] at hdescribes
      cases change with
      | added n => exact absurd hdescribes.1 hold
      | removed n =>
        -- removed children come before the new ones
        have hmem : (k, ChildChange.removed n) ∈ done := by
          refine mem_done ht.sorted hsplit hchange hkc ?_
          rw [Before, hc]
          show ¬(1 < 0 ∨ EventType.childAdded = .childRemoved ∧ _)
          simp
        rw [(lookup_done ht.sorted hsplit).2 hmem] at hdone
        cases hdone
      | changed n o => exact hdescribes.2.2.2

/-- A child before a new one is in the list when the new one comes. -/
theorem lookup_ne_none (ht : Tracks old.child new.child changes) (hn : Canonical new) (hb : Mirrors base old)
    (hsplit : done ++ c :: rest = ordered changes) (hc : c.2.type = .childAdded) (h : ShownAfter base done list) {k : κ}
    (hk : new.child k ≠ .empty) (hkc : k < c.1) : list.lookup k ≠ none := by
  have hdescribes := ht.describes k
  have hbase : old.child k ≠ .empty → base.lookup k ≠ none := by
    intro hold hnone
    have := hb.children k
    rw [hnone] at this
    exact hold this
  rw [h.lookup k]
  cases hdone : done.lookup k with
  | some change =>
    rw [lookup_done ht.sorted hsplit] at hdone
    rw [lookup_of_mem_done ht.sorted hsplit hdone] at hdescribes
    cases change with
    | added n => simp [shown]
    | removed n => exact absurd hdescribes.2.2 hk
    | changed n o => simp [shown]
  | none =>
    apply hbase
    cases hchange : changes.lookup k with
    | none =>
      rw [hchange] at hdescribes
      exact ne_empty_of_same (hn.child k) hdescribes hk
    | some change =>
      rw [hchange] at hdescribes
      cases change with
      | added n =>
        -- new children come in the order of their keys
        have hmem : (k, ChildChange.added n) ∈ done := by
          refine mem_done ht.sorted hsplit hchange hkc.ne ?_
          rw [Before, hc]
          show ¬(1 < 1 ∨ EventType.childAdded = .childAdded ∧ c.1 < k)
          simpa using hkc.le
        rw [(lookup_done ht.sorted hsplit).2 hmem] at hdone
        cases hdone
      | removed n => exact hdescribes.2.1
      | changed n o => exact hdescribes.2.1

theorem showEvent_spec (ht : Tracks old.child new.child changes) (ho : Canonical old) (hn : Canonical new)
    (hb : Mirrors base old) (hsplit : done ++ c :: rest = ordered changes) {event : DataEvent κ ℓ}
    (he : EventOf new c event) (h : ShownAfter base done list) :
    Returns (showEvent list event) (ShownAfter base (done ++ [c])) := by
  have hdone := lookup_done_self ht.sorted hsplit
  have hchange : changes.lookup c.1 = some c.2 := by
    rw [← mem_ordered ht.sorted, ← hsplit]
    simp
  have hdescribes := ht.describes c.1
  rw [hchange] at hdescribes
  have hinsert : ∀ x : Lib.Tree κ ℓ, shown c.2 = some x →
      ShownAfter base (done ++ [c]) (Assoc.insertKey c.1 x list) := by
    intro x hx
    refine h.concat hdone (h.sorted.insertKey c.1 x) ?_ fun j hj => Lib.Assoc.lookup_insertKey_of_ne hj x list
    rw [Lib.Assoc.lookup_insertKey_self, hx]
  have hself : list.lookup c.1 = base.lookup c.1 := by rw [h.lookup, hdone]
  unfold EventOf at he
  cases hc2 : c.2 with
  | removed n =>
    rw [hc2] at he
    subst he
    refine .ok (h.concat hdone (h.sorted.removeKey c.1) ?_ fun j hj => Lib.Assoc.lookup_removeKey_of_ne hj list)
    rw [Lib.Assoc.lookup_removeKey_self, hc2]
    rfl
  | added n =>
    rw [hc2] at he hdescribes
    obtain ⟨prev, hprev, rfl⟩ := he
    have htype : c.2.type = .childAdded := by rw [hc2]; rfl
    have hnone : list.lookup c.1 = none := by
      have := hb.children c.1
      rw [hdescribes.1] at this
      rw [hself]
      cases hl : base.lookup c.1 with
      | none => rfl
      | some x =>
        rw [hl] at this
        exact absurd rfl this.2
    have hkeys : ∀ d ∈ list, d.1 ≠ c.1 ∧ new.child d.1 ≠ .empty := by
      intro d hd
      have hl := h.sorted.lookup_of_mem hd
      have hne : d.1 ≠ c.1 := by
        intro heq
        rw [heq, hnone] at hl
        cases hl
      exact ⟨hne, child_ne_empty ht ho hb hsplit htype h (by rw [hl]; simp) hne⟩
    have hafter : Assoc.insertAfter prev c.1 n list = some (Assoc.insertKey c.1 n list) := by
      cases prev with
      | none =>
        refine Lib.Assoc.insertAfter_none fun d hd => ?_
        exact lt_of_le_of_ne (hprev d.1 (hkeys d hd).2) (hkeys d hd).1.symm
      | some j =>
        obtain ⟨hjc, hj, hbetween⟩ := hprev
        refine Lib.Assoc.insertAfter_some h.sorted ?_ hjc fun d hd => ?_
        · have hl := lookup_ne_none ht hn hb hsplit htype h hj hjc
          obtain ⟨x, hx⟩ := Option.ne_none_iff_exists'.1 hl
          exact List.mem_map.2 ⟨_, Lib.Assoc.mem_of_lookup hx, rfl⟩
        · refine (hbetween d.1 (hkeys d hd).2).imp_right fun hle => ?_
          exact lt_of_le_of_ne hle (hkeys d hd).1.symm
    rw [showEvent, hafter]
    exact .ok (hinsert n (by rw [hc2]; rfl))
  | changed n o =>
    rw [hc2] at he hdescribes
    obtain ⟨prev, rfl⟩ := he
    have hmem : c.1 ∈ list.map Prod.fst := by
      have := hb.children c.1
      cases hl : base.lookup c.1 with
      | none =>
        rw [hl] at this
        exact absurd this hdescribes.2.1
      | some x =>
        rw [hl] at hself
        exact List.mem_map.2 ⟨_, Lib.Assoc.mem_of_lookup hself, rfl⟩
    rw [showEvent, Lib.Assoc.map_replace_eq h.sorted hmem]
    exact .ok (hinsert n (by rw [hc2]; rfl))

/-- The list after all the changes. -/
theorem ShownAfter.mirrors (ht : Tracks old.child new.child changes) (ho : Canonical old) (hn : Canonical new)
    (hb : Mirrors base old) (h : ShownAfter base (ordered changes) list) : Mirrors list new := by
  refine ⟨h.sorted, fun k => ?_⟩
  have hdescribes := ht.describes k
  rw [h.lookup, lookup_ordered ht.sorted]
  cases hchange : changes.lookup k with
  | none =>
    rw [hchange] at hdescribes
    have hbase := hb.children k
    cases hl : base.lookup k with
    | none =>
      rw [hl] at hbase
      refine (hn.child k).eq_empty (Same.trans (Same.symm hdescribes) ?_)
      rw [show old.child k = .empty from hbase]
      exact Same.refl _
    | some x =>
      rw [hl] at hbase
      exact ⟨hbase.1.trans hdescribes, ne_empty_of_same (ho.child k) (Same.symm hdescribes) hbase.2⟩
  | some change =>
    rw [hchange] at hdescribes
    cases change with
    | added n => exact ⟨hdescribes.2.1.symm, hdescribes.2.2⟩
    | removed n => exact hdescribes.2.2
    | changed n o => exact ⟨hdescribes.2.2.1.symm, hdescribes.2.2.2⟩

/-- A registration for all changes of children. -/
def HearsChildren (registration : Registration) : Prop :=
  registration.responseTo .childRemoved = true ∧ registration.responseTo .childAdded = true ∧
    registration.responseTo .childChanged = true

def valueEvents (registration : Registration) (valueChange : Option (Lib.Tree κ ℓ)) : List (DataEvent κ ℓ) :=
  if registration.responseTo .value then (valueChange.map DataEvent.value).toList else []

theorem ne_value_of_forall₂ {cs : ChangeMap κ ℓ} {events : List (DataEvent κ ℓ)}
    (h : List.Forall₂ (EventOf new) cs events) : ∀ event ∈ events, ∀ node, event ≠ .value node := by
  induction h with
  | nil => exact fun event hevent => absurd hevent List.not_mem_nil
  | @cons c event cs events hc hcs ih =>
    refine List.forall_mem_cons.2 ⟨fun node he => ?_, ih⟩
    subst he
    unfold EventOf at hc
    cases hc2 : c.2 <;> simp [hc2] at hc

theorem generateEvents_spec (ht : Tracks old.child new.child changes) (hn : Canonical new) (registration : Registration)
    (t : EventType) : Returns (generateEvents registration t changes new) fun events =>
      (∀ event ∈ events, ∀ node, event ≠ .value node) ∧
      (registration.responseTo t = true → List.Forall₂ (EventOf new) (changesOf t changes) events) := by
  unfold generateEvents
  apply Returns.ite
  · intro _
    have hevent : ∀ c ∈ changesOf t changes, Returns (generateEventForChange new c.1 c.2) (EventOf new c) :=
      fun c hc => generateEventForChange_spec ht hn ((mem_changesOf ht.sorted).1 hc).1
    exact (Lib.returns_mapM hevent).mono fun events hevents => ⟨ne_value_of_forall₂ hevents, fun _ => hevents⟩
  · intro hno
    exact .ok ⟨fun _ h => absurd h List.not_mem_nil, fun hyes => absurd hyes hno⟩

theorem generateEventsForChanges_spec (ht : Tracks old.child new.child changes) (hn : Canonical new)
    (registration : Registration) (valueChange : Option (Lib.Tree κ ℓ)) :
    Returns (generateEventsForChanges registration changes valueChange new) fun events =>
      ∃ childEvents, events = childEvents ++ valueEvents registration valueChange ∧
        (∀ event ∈ childEvents, ∀ node, event ≠ .value node) ∧
        (HearsChildren registration → List.Forall₂ (EventOf new) (ordered changes) childEvents) := by
  unfold generateEventsForChanges
  apply (generateEvents_spec ht hn registration .childRemoved).bind
  intro removed hr
  apply (generateEvents_spec ht hn registration .childAdded).bind
  intro added ha
  apply (generateEvents_spec ht hn registration .childChanged).bind
  intro changed hc
  refine .pure ⟨removed ++ added ++ changed, rfl, ?_, fun hhears => ?_⟩
  · intro event hevent
    rcases List.mem_append.1 hevent with hevent | hevent
    · rcases List.mem_append.1 hevent with hevent | hevent
      · exact hr.1 event hevent
      · exact ha.1 event hevent
    · exact hc.1 event hevent
  · exact List.rel_append (List.rel_append (hr.2 hhears.1) (ha.2 hhears.2.1)) (hc.2 hhears.2.2)

theorem showEvents_valueEvents (list : List (κ × Lib.Tree κ ℓ)) (registration : Registration)
    (valueChange : Option (Lib.Tree κ ℓ)) : showEvents list (valueEvents registration valueChange) = .ok list := by
  unfold valueEvents
  split
  · cases valueChange <;> rfl
  · rfl

/-- **The list of a listener** after the events of an operation. -/
theorem replay_generateEvents (ht : Tracks old.child new.child changes) (ho : Canonical old) (hn : Canonical new)
    {registration : Registration} (hhears : HearsChildren registration) (valueChange : Option (Lib.Tree κ ℓ))
    {events : List (DataEvent κ ℓ)} (he : generateEventsForChanges registration changes valueChange new = .ok events)
    (hb : Mirrors base old) : Returns (showEvents base events) (Mirrors · new) := by
  obtain ⟨events', hok, childEvents, rfl, -, hforall⟩ := generateEventsForChanges_spec ht hn registration valueChange
  rw [he, Except.ok.injEq] at hok
  subst hok
  rw [showEvents, List.foldlM_append]
  have hshow := Lib.returns_foldlM_forall₂ (f := showEvent) (I := ShownAfter base) (hforall hhears)
    ⟨hb.sorted, fun _ => rfl⟩ fun done c rest event list hsplit hevent h =>
      showEvent_spec ht ho hn hb hsplit hevent h
  apply hshow.bind
  intro list hlist
  rw [← showEvents, showEvents_valueEvents]
  exact .ok (hlist.mirrors ht ho hn hb)

end Operation

end FEventGenerator

end ChatApp
