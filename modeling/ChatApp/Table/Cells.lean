import ChatApp.Records
import ChatApp.Lib.Runs
import Mathlib.Logic.Function.Basic

/-!
# The recent chats of Home

The table of `HomeViewController`: chats arrive through `observeMessages`, the table is reloaded and scrolled, cells
are reused, and every `cellForRowAt` starts a lookup of `users/<receiver>` whose answer is written into the cell that
was dequeued, whatever that cell shows by then. The database is fixed during a run.

- `Table.step`: one event; a call that raises ends the process (`Table.fault`);
- `cellForRowAt_eq_ok`: a call completes iff the row is there and `child` accepts the receiver of its chat.
-/

namespace ChatApp

open Lib.Runs

/-- The labels of a cell; the texts of a fresh one come from the storyboard. -/
structure RecentChatTableViewCell where
  usernameLabel : Option String := some "Label"
  lastMessageLabel : Option String := some "Label"
  deriving DecidableEq, Repr

namespace HomeViewController

def numberOfRowsInSection (chats : List Chat) : Nat := chats.length

/-- The part of `cellForRowAt` that can fail: the chat of the row and the reference of its lookup. -/
def cellForRowAt (chats : List Chat) (row : Nat) : Except Fault (Chat × Ref) :=
  match chats[row]? with
  | none => .error .indexOutOfRange
  | some chat => do
    let users ← Ref.root.child Constant.users
    let ref ← users.child chat.receiver
    return (chat, ref)

/-- The answer of a lookup, written into the label of the cell. -/
def lookupAnswered (label : Option String) (value : Node) : Option String :=
  match value.asDict with
  | some dict => dict.string? User.Const.username
  | none => label

/-- `cellForRowAt` completes iff the row is in bounds and the receiver is a valid path string. -/
theorem cellForRowAt_eq_ok {chats : List Chat} {row : Nat} {chat : Chat} {ref : Ref} :
    cellForRowAt chats row = .ok (chat, ref) ↔ chats[row]? = some chat ∧
      FValidation.isValidPathString chat.receiver = true ∧
        ref = ⟨Constant.users :: FPath.pieces chat.receiver⟩ := by
  have hroot : Ref.root.child Constant.users = .ok ⟨[Constant.users]⟩ := by rfl
  unfold cellForRowAt
  cases chats[row]? with
  | none => simp
  | some chat' =>
    simp only [hroot, bind, Except.bind, Option.some.injEq]
    cases hc : Ref.child ⟨[Constant.users]⟩ chat'.receiver with
    | error f =>
      simp only [reduceCtorEq, false_iff, not_and]
      rintro rfl hv
      rw [(Ref.child_eq_ok (by simp)).2 ⟨hv, rfl⟩] at hc
      cases hc
    | ok ref' =>
      obtain ⟨hv, rfl⟩ := (Ref.child_eq_ok (by simp)).1 hc
      simp only [pure, Except.pure, Except.ok.injEq, Prod.mk.injEq, List.singleton_append]
      constructor
      · rintro ⟨rfl, rfl⟩; exact ⟨rfl, hv, rfl⟩
      · rintro ⟨rfl, -, rfl⟩; exact ⟨rfl, rfl⟩

end HomeViewController

/-- A cell object of the table. -/
structure CellState where
  cell : RecentChatTableViewCell := {}
  /-- The row it was last configured for, while it is on screen. -/
  row : Option Nat := none
  /-- Bookkeeping: the receiver whose record `usernameLabel` was last set from. -/
  labelledFor : Option String := none
  deriving DecidableEq, Repr

/-- An unanswered lookup, with the cell its closure captured. -/
structure Lookup where
  cell : Nat
  receiver : String
  deriving DecidableEq, Repr

structure Table where
  chats : List Chat
  /-- The row counts that `numberOfRowsInSection` has returned. -/
  rowCounts : List Nat
  /-- All cells; those that were never dequeued are fresh. -/
  cells : Nat → CellState
  lookups : List Lookup
  fault : Option Fault

inductive TableEvent
  | childAdded (value : Node)
  | reloadData
  | cellForRowAt (cell row : Nat)
  | didEndDisplaying (cell : Nat)
  | lookupAnswered (cell : Nat) (receiver : String)

/-- The value under `users/<receiver>`. -/
def userValue (db : Node) (receiver : String) : Node := db.get (Constant.users :: FPath.pieces receiver)

namespace Table

def initial : Table := ⟨[], [], fun _ => {}, [], none⟩

/-- The cell `i` configured for `row`. -/
def configure (s : Table) (i row : Nat) (chat : Chat) : Table :=
  { s with
    cells := Function.update s.cells i
      { s.cells i with
        cell := { (s.cells i).cell with lastMessageLabel := some chat.message }
        row := some row }
    lookups := s.lookups ++ [⟨i, chat.receiver⟩] }

/-- The answer of a lookup for the cell `i`. -/
def answer (db : Node) (s : Table) (i : Nat) (receiver : String) : Table :=
  { s with
    cells := Function.update s.cells i
      { s.cells i with
        cell := { (s.cells i).cell with
          usernameLabel :=
            HomeViewController.lookupAnswered (s.cells i).cell.usernameLabel (userValue db receiver) }
        labelledFor := if (userValue db receiver).asDict.isSome then some receiver else (s.cells i).labelledFor }
    lookups := s.lookups.erase ⟨i, receiver⟩ }

/-- One event of the table. UIKit asks for a row below a count it was given, with a cell that is off screen. -/
def step (db : Node) (s : Table) (e : TableEvent) : Option Table :=
  if s.fault.isSome then none
  else
    match e with
    | .childAdded value => some { s with chats := HomeViewController.observeMessages s.chats value }
    | .reloadData =>
      some { s with
        rowCounts := HomeViewController.numberOfRowsInSection s.chats :: s.rowCounts
        cells := fun i => { s.cells i with row := none } }
    | .cellForRowAt cell row =>
      if (s.cells cell).row = none ∧ ∃ n ∈ s.rowCounts, row < n then
        match HomeViewController.cellForRowAt s.chats row with
        | .ok (chat, _) => some (s.configure cell row chat)
        | .error f => some { s with fault := some f }
      else none
    | .didEndDisplaying cell =>
      some { s with cells := Function.update s.cells cell { s.cells cell with row := none } }
    | .lookupAnswered cell receiver =>
      if ⟨cell, receiver⟩ ∈ s.lookups then some (s.answer db cell receiver) else none

/-- Every event that can happen, with its effect. -/
theorem step_cases {db : Node} {s s' : Table} {e : TableEvent} (h : s.step db e = some s') : s.fault = none ∧
    ((∃ value, e = .childAdded value ∧ s' = { s with chats := HomeViewController.observeMessages s.chats value }) ∨
    (e = .reloadData ∧ s' = { s with
        rowCounts := s.chats.length :: s.rowCounts
        cells := fun i => { s.cells i with row := none } }) ∨
    (∃ i row, e = .cellForRowAt i row ∧ (s.cells i).row = none ∧ (∃ n ∈ s.rowCounts, row < n) ∧
      ((∃ chat ref, HomeViewController.cellForRowAt s.chats row = .ok (chat, ref) ∧ s' = s.configure i row chat) ∨
        ∃ f, HomeViewController.cellForRowAt s.chats row = .error f ∧ s' = { s with fault := some f })) ∨
    (∃ i, e = .didEndDisplaying i ∧
      s' = { s with cells := Function.update s.cells i { s.cells i with row := none } }) ∨
    (∃ i receiver, e = .lookupAnswered i receiver ∧ ⟨i, receiver⟩ ∈ s.lookups ∧ s' = s.answer db i receiver)) := by
  unfold step at h
  split at h
  · cases h
  · rename_i hf
    refine ⟨by simpa using hf, ?_⟩
    cases e with
    | childAdded value => exact Or.inl ⟨value, rfl, (Option.some.inj h).symm⟩
    | reloadData => exact Or.inr (Or.inl ⟨rfl, (Option.some.inj h).symm⟩)
    | cellForRowAt i row =>
      refine Or.inr (Or.inr (Or.inl ⟨i, row, rfl, ?_⟩))
      simp only at h
      split at h
      · rename_i hg
        refine ⟨hg.1, hg.2, ?_⟩
        split at h
        · rename_i chat ref hc
          exact Or.inl ⟨chat, ref, hc, (Option.some.inj h).symm⟩
        · rename_i f hc
          exact Or.inr ⟨f, hc, (Option.some.inj h).symm⟩
      · cases h
    | didEndDisplaying i => exact Or.inr (Or.inr (Or.inr (Or.inl ⟨i, rfl, (Option.some.inj h).symm⟩)))
    | lookupAnswered i receiver =>
      refine Or.inr (Or.inr (Or.inr (Or.inr ⟨i, receiver, rfl, ?_⟩)))
      simp only at h
      split at h
      · exact ⟨‹_›, (Option.some.inj h).symm⟩
      · cases h

end Table

end ChatApp
