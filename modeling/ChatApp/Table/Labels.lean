import ChatApp.Table.Cells

/-!
# Which name a recent-chat cell ends up with

The closure of a lookup writes into the cell it captured. A name is wrong when the answer for an earlier row is the
last one to arrive at a reused cell, or when a row without a users record gets a cell that still shows a name.

- `Orderly`: the condition on a step under which neither happens;
- `LabelInv`: a cell on screen shows the message of its row, and its name or an unanswered lookup that will write it;
- `cells_labelled`: after a run of orderly steps, with no lookup outstanding, every cell on screen is labelled for the
  receiver of its row.
-/

namespace ChatApp.Table

open Lib.Runs

/-- The cells on screen show the message of their row, the username stored for its receiver if there is a record,
and never a name that was read for a different receiver. -/
def Labelled (db : Node) (s : Table) : Prop :=
  ∀ i row, (s.cells i).row = some row → ∃ chat, s.chats[row]? = some chat ∧
    (s.cells i).cell.lastMessageLabel = some chat.message ∧
    (∀ dict, (userValue db chat.receiver).asDict = some dict →
      (s.cells i).cell.usernameLabel = dict.string? User.Const.username) ∧
    ∀ receiver, (s.cells i).labelledFor = some receiver → receiver = chat.receiver

/-- A step that cannot leave a wrong name on screen. The answer for another receiver than that of the row on screen
comes while the lookup of that row is still to be answered with a record; and a row without a record gets no cell
that shows another receiver's name. -/
def Orderly (db : Node) (s : Table) : TableEvent → Prop
  | .lookupAnswered i receiver =>
    (userValue db receiver).asDict.isSome = true → ∀ row chat, (s.cells i).row = some row →
      s.chats[row]? = some chat → receiver ≠ chat.receiver →
        ⟨i, chat.receiver⟩ ∈ s.lookups ∧ (userValue db chat.receiver).asDict.isSome = true
  | .cellForRowAt i row =>
    ∀ chat, s.chats[row]? = some chat → (userValue db chat.receiver).asDict = none →
      ∀ receiver, (s.cells i).labelledFor = some receiver → receiver = chat.receiver
  | _ => True

/-- The cell `i` is or will be labelled for the receiver of `chat`. -/
structure CellInv (db : Node) (lookups : List Lookup) (i : Nat) (c : CellState) (chat : Chat) : Prop where
  message : c.cell.lastMessageLabel = some chat.message
  name : ∀ dict, (userValue db chat.receiver).asDict = some dict → ⟨i, chat.receiver⟩ ∈ lookups ∨
    (c.cell.usernameLabel = dict.string? User.Const.username ∧ c.labelledFor = some chat.receiver)
  noRecord : (userValue db chat.receiver).asDict = none →
    ∀ receiver, c.labelledFor = some receiver → receiver = chat.receiver

def LabelInv (db : Node) (s : Table) : Prop :=
  ∀ i row, (s.cells i).row = some row → ∃ chat, s.chats[row]? = some chat ∧
    CellInv db s.lookups i (s.cells i) chat

variable {db : Node} {s s' : Table}

/-- The lookups of a cell only matter as far as they are its own. -/
theorem CellInv.mono {lookups lookups' : List Lookup} {i : Nat} {c : CellState} {chat : Chat}
    (h : CellInv db lookups i c chat) (hl : ∀ r, ⟨i, r⟩ ∈ lookups → ⟨i, r⟩ ∈ lookups') :
    CellInv db lookups' i c chat :=
  ⟨h.message, fun dict hd => (h.name dict hd).imp_left (hl _), h.noRecord⟩

theorem labelInv_childAdded (hi : LabelInv db s) (value : Node) :
    LabelInv db { s with chats := HomeViewController.observeMessages s.chats value } := by
  intro i row hrow
  obtain ⟨chat, hc, hok⟩ := hi i row hrow
  refine ⟨chat, ?_, hok⟩
  simp only [HomeViewController.observeMessages_eq]
  rw [List.getElem?_append_left (List.getElem?_eq_some_iff.1 hc).1]
  exact hc

/-- A cell leaves the screen. -/
theorem labelInv_didEndDisplaying (hi : LabelInv db s) (i : Nat) :
    LabelInv db { s with cells := Function.update s.cells i { s.cells i with row := none } } := by
  intro j row hrow
  by_cases hj : j = i
  · subst hj; simp at hrow
  · simp only [Function.update_of_ne hj] at hrow ⊢
    exact hi j row hrow

theorem labelInv_configure (hi : LabelInv db s) {i row : Nat} {chat : Chat} (hc : s.chats[row]? = some chat)
    (ho : Orderly db s (.cellForRowAt i row)) : LabelInv db (s.configure i row chat) := by
  intro j row' hrow
  by_cases hj : j = i
  · subst hj
    simp only [configure, Function.update_self, Option.some.injEq] at hrow ⊢
    subst hrow
    exact ⟨chat, hc, rfl, fun dict _ => Or.inl (by simp), fun hn => ho chat hc hn⟩
  · simp only [configure, Function.update_of_ne hj] at hrow ⊢
    obtain ⟨chat', hc', hok⟩ := hi j row' hrow
    exact ⟨chat', hc', hok.mono fun r hr => List.mem_append_left _ hr⟩

/-- The answer of a lookup, for the cell it captured. -/
theorem cellInv_answer {i : Nat} {receiver : String} {row : Nat} {chat : Chat}
    (h : CellInv db s.lookups i (s.cells i) chat) (hrow : (s.cells i).row = some row)
    (hc : s.chats[row]? = some chat) (ho : Orderly db s (.lookupAnswered i receiver)) :
    CellInv db (s.answer db i receiver).lookups i ((s.answer db i receiver).cells i) chat := by
  have hkeep : receiver ≠ chat.receiver → ⟨i, chat.receiver⟩ ∈ s.lookups →
      ⟨i, chat.receiver⟩ ∈ (s.answer db i receiver).lookups := by
    intro hne hmem
    have hl : (⟨i, chat.receiver⟩ : Lookup) ≠ ⟨i, receiver⟩ := fun he => hne (congrArg Lookup.receiver he).symm
    exact (List.mem_erase_of_ne hl).2 hmem
  cases hd : (userValue db receiver).asDict with
  | none =>
    -- nothing is written; the lookup that is gone had no record to offer
    simp only [answer, Function.update_self, HomeViewController.lookupAnswered, hd, Option.isSome_none,
      Bool.false_eq_true, if_false]
    refine ⟨h.message, fun dict hdict => (h.name dict hdict).imp_left fun hmem => ?_, h.noRecord⟩
    exact hkeep (fun he => by rw [he, hdict] at hd; cases hd) hmem
  | some d =>
    by_cases hr : receiver = chat.receiver
    · subst hr
      simp only [answer, Function.update_self, HomeViewController.lookupAnswered, hd, Option.isSome_some, if_true]
      refine ⟨h.message, fun dict hdict => Or.inr ⟨?_, rfl⟩, fun hn => ?_⟩
      · cases hd.symm.trans hdict; rfl
      · cases hd.symm.trans hn
    · obtain ⟨hmem, hsome⟩ := ho (by simp [hd]) row chat hrow hc hr
      refine ⟨?_, fun dict _ => Or.inl (hkeep hr hmem), fun hn => ?_⟩
      · simpa [answer] using h.message
      · rw [hn] at hsome; cases hsome

theorem labelInv_answer (hi : LabelInv db s) {i : Nat} {receiver : String}
    (ho : Orderly db s (.lookupAnswered i receiver)) : LabelInv db (s.answer db i receiver) := by
  intro j row hrow
  by_cases hj : j = i
  · subst hj
    have hrow' : (s.cells j).row = some row := by simpa [answer] using hrow
    obtain ⟨chat, hc, hok⟩ := hi j row hrow'
    exact ⟨chat, hc, cellInv_answer hok hrow' hc ho⟩
  · have hcell : (s.answer db i receiver).cells j = s.cells j := by simp [answer, Function.update_of_ne hj]
    rw [hcell] at hrow ⊢
    obtain ⟨chat, hc, hok⟩ := hi j row hrow
    refine ⟨chat, hc, hok.mono fun r hr => ?_⟩
    have hl : (⟨j, r⟩ : Lookup) ≠ ⟨i, receiver⟩ := fun he => hj (congrArg Lookup.cell he)
    exact (List.mem_erase_of_ne hl).2 hr

/-- An orderly step keeps the invariant. -/
theorem step_labelInv {e : TableEvent} (hi : LabelInv db s) (ho : Orderly db s e) (h : s.step db e = some s') :
    LabelInv db s' := by
  obtain ⟨-, ⟨value, rfl, rfl⟩ | ⟨rfl, rfl⟩ | ⟨i, row, rfl, -, -, hres⟩ | ⟨i, rfl, rfl⟩ |
    ⟨i, receiver, rfl, -, rfl⟩⟩ := step_cases h
  · exact labelInv_childAdded hi value
  · intro i row hrow
    cases hrow
  · rcases hres with ⟨chat, ref, hok, rfl⟩ | ⟨f, -, rfl⟩
    · exact labelInv_configure hi (HomeViewController.cellForRowAt_eq_ok.1 hok).1 ho
    · exact hi
  · exact labelInv_didEndDisplaying hi i
  · exact labelInv_answer hi ho

theorem run_labelInv {es : List TableEvent} (h : run (step db) initial es = some s)
    (ho : Along (step db) (Orderly db) initial es) : LabelInv db s := by
  refine run_inv_along (fun _ _ _ hi ho hs => step_labelInv hi ho hs) h ho ?_
  intro i row hrow
  cases hrow

/-- **The names of the recent chats.** After a run of orderly steps, with every lookup answered, each cell on screen is
labelled for the receiver of its row. -/
theorem cells_labelled {es : List TableEvent} (h : run (step db) initial es = some s)
    (ho : Along (step db) (Orderly db) initial es) (hq : s.lookups = []) : Labelled db s := by
  intro i row hrow
  obtain ⟨chat, hc, hok⟩ := run_labelInv h ho i row hrow
  have hname : ∀ dict, (userValue db chat.receiver).asDict = some dict →
      (s.cells i).cell.usernameLabel = dict.string? User.Const.username ∧
        (s.cells i).labelledFor = some chat.receiver := by
    intro dict hd
    refine (hok.name dict hd).resolve_left fun hmem => ?_
    rw [hq] at hmem
    cases hmem
  refine ⟨chat, hc, hok.message, fun dict hd => (hname dict hd).1, fun receiver hr => ?_⟩
  cases hd : (userValue db chat.receiver).asDict with
  | none => exact hok.noRecord hd receiver hr
  | some dict =>
    rw [(hname dict hd).2] at hr
    exact (Option.some.inj hr).symm

/-- The condition leaves out no harmless step: one that is not orderly puts a wrong name on screen at once. -/
theorem orderly_of_labelled {e : TableEvent} (h : s.step db e = some s') (hf : s'.fault = none)
    (hl : Labelled db s') : Orderly db s e := by
  obtain ⟨-, ⟨value, rfl, rfl⟩ | ⟨rfl, rfl⟩ | ⟨i, row, rfl, -, -, hres⟩ | ⟨i, rfl, rfl⟩ |
    ⟨i, receiver, rfl, -, rfl⟩⟩ := step_cases h
  · trivial
  · trivial
  · intro chat hc _ receiver hr
    rcases hres with ⟨chat', ref, hok, rfl⟩ | ⟨f, -, rfl⟩
    · obtain ⟨hc', -⟩ := HomeViewController.cellForRowAt_eq_ok.1 hok
      obtain ⟨chat'', hc'', -, -, hfor⟩ := hl i row (by simp [configure])
      cases hc.symm.trans hc''
      exact hfor receiver (by simpa [configure] using hr)
    · cases hf
  · trivial
  · intro hsome row chat hrow hc hne
    obtain ⟨chat', hc', -, -, hfor⟩ := hl i row (by simpa [answer] using hrow)
    cases hc.symm.trans hc'
    exact absurd (hfor receiver (by simp [answer, hsome])) hne

/-- A database with the records of two users. -/
def twoUsers : Node :=
  .node [("users", .node [("alice", .node [("username", Node.string "Alice")]),
    ("bob", .node [("username", Node.string "Bob")])])]

def messageTo (receiver : String) : Node :=
  .node [("message", Node.string "hi"), ("receiver", Node.string receiver)]

/-- A cell whose lookup is answered before it is reused shows the right name. -/
theorem cells_labelled_alice : ∃ s, run (step twoUsers) initial [.childAdded (messageTo "alice"), .reloadData,
      .cellForRowAt 0 0, .lookupAnswered 0 "alice"] = some s ∧ s.lookups = [] ∧ Labelled twoUsers s := by
  have hrun : ∃ s, run (step twoUsers) initial [.childAdded (messageTo "alice"), .reloadData, .cellForRowAt 0 0,
      .lookupAnswered 0 "alice"] = some s ∧ s.lookups = [] := ⟨_, rfl, rfl⟩
  obtain ⟨s, hs, hq⟩ := hrun
  refine ⟨s, hs, hq, cells_labelled hs ?_ hq⟩
  refine ⟨trivial, fun s₁ h₁ => ⟨trivial, fun s₂ h₂ => ?_⟩⟩
  cases h₁
  cases h₂
  refine ⟨?_, fun s₃ h₃ => ⟨?_, fun _ _ => trivial⟩⟩
  · intro chat hc _ receiver hr
    cases hr
  · cases h₃
    intro _ row chat hrow hc hne
    cases hrow
    cases hc
    exact absurd rfl hne

/-- The answer for Alice arrives last, at a cell that is on screen for the message to Bob. -/
theorem cells_stale_answer : ∃ s, run (step twoUsers) initial [.childAdded (messageTo "alice"),
      .childAdded (messageTo "bob"), .reloadData, .cellForRowAt 0 0, .didEndDisplaying 0, .cellForRowAt 0 1,
      .lookupAnswered 0 "bob", .lookupAnswered 0 "alice"] = some s ∧ s.lookups = [] ∧
    (s.cells 0).row = some 1 ∧ (s.chats[1]?).map Chat.receiver = some "bob" ∧
    (s.cells 0).cell.usernameLabel = some "Alice" ∧ ¬Labelled twoUsers s := by
  have hrun : ∃ s, run (step twoUsers) initial [.childAdded (messageTo "alice"), .childAdded (messageTo "bob"),
      .reloadData, .cellForRowAt 0 0, .didEndDisplaying 0, .cellForRowAt 0 1, .lookupAnswered 0 "bob",
      .lookupAnswered 0 "alice"] = some s ∧ s.lookups = [] ∧ (s.cells 0).row = some 1 ∧
      (s.chats[1]?).map Chat.receiver = some "bob" ∧ (s.cells 0).cell.usernameLabel = some "Alice" ∧
      (s.cells 0).labelledFor = some "alice" := ⟨_, rfl, rfl, rfl, rfl, rfl, rfl⟩
  obtain ⟨s, hs, hq, hrow, hbob, hname, hfor⟩ := hrun
  refine ⟨s, hs, hq, hrow, hbob, hname, fun hl => ?_⟩
  obtain ⟨chat, hc, -, -, hl⟩ := hl 0 1 hrow
  rw [hc] at hbob
  have := (hl "alice" hfor).trans (Option.some.inj hbob)
  exact absurd this (by decide)

end ChatApp.Table
