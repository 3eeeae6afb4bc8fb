import ChatApp.Table.Cells

/-!
# Which records make `cellForRowAt` raise

The chats of the table are the dictionaries delivered so far, in order, and a row count that was returned stays valid
because the array only grows (`run_rows`). So the array access never fails (`row_in_bounds`), and a run raises exactly
when it asks for a row whose record has no `receiver` string that `child` accepts (`rows_safe_iff`).
-/

namespace ChatApp.Table

open Lib.Runs

/-- The dictionaries among the values delivered to `observeMessages`. -/
def dictionaries (es : List TableEvent) : List Dict :=
  es.filterMap fun
    | .childAdded value => value.asDict
    | _ => none

/-- The rows that `cellForRowAt` was called for. -/
def requests (es : List TableEvent) : List Nat :=
  es.filterMap fun
    | .cellForRowAt _ row => some row
    | _ => none

/-- The record has a string `receiver`, not empty and without any of `. # $ [ ]`. -/
def Accepted (dict : Dict) : Prop :=
  ∃ receiver, dict.string? Chat.Const.receiver = some receiver ∧ receiver ≠ "" ∧
    ∀ c ∈ receiver.toList, c ∉ ['.', '#', '$', '[', ']']

/-- The decoded receiver of an accepted record, and of no other, is a valid path string. -/
theorem accepted_iff (dict : Dict) :
    Accepted dict ↔ FValidation.isValidPathString (HomeViewController.chat dict).receiver = true := by
  have hchars : ∀ c, c ∈ FValidation.kInvalidPathCharacters.toList ↔ c ∈ ['.', '#', '$', '[', ']'] := by
    intro c
    have : FValidation.kInvalidPathCharacters.toList = ['[', ']', '.', '#', '$'] := by decide
    simp only [this, List.mem_cons, List.not_mem_nil, or_false]
    tauto
  unfold Accepted FValidation.isValidPathString HomeViewController.chat
  rw [FValidation.avoids_eq_true]
  simp only [hchars]
  cases dict.string? Chat.Const.receiver <;> simp

theorem dictionaries_snoc (es : List TableEvent) (e : TableEvent) :
    dictionaries (es ++ [e]) = dictionaries es ++ dictionaries [e] := by
  simp [dictionaries]

theorem requests_snoc (es : List TableEvent) (e : TableEvent) :
    requests (es ++ [e]) = requests es ++ requests [e] := by
  simp [requests]

/-- What a run leaves behind: the chats are the decoded dictionaries, every row count is at most their number, every
requested row is below it, and no call has raised iff every requested record is accepted. -/
structure RowsInv (es : List TableEvent) (s : Table) : Prop where
  chats : s.chats = (dictionaries es).map HomeViewController.chat
  counts : ∀ n ∈ s.rowCounts, n ≤ (dictionaries es).length
  rows : ∀ row ∈ requests es, row < (dictionaries es).length
  fault : s.fault = none ↔ ∀ row ∈ requests es, ∃ dict, (dictionaries es)[row]? = some dict ∧ Accepted dict

theorem RowsInv.initial : RowsInv [] initial :=
  ⟨rfl, by simp [Table.initial], by simp [requests], by simp [requests, Table.initial]⟩

/-- An event that delivers no dictionary and asks for no row. -/
theorem RowsInv.idle {es : List TableEvent} {e : TableEvent} {s s' : Table} (hi : RowsInv es s)
    (hd : dictionaries [e] = []) (hr : requests [e] = []) (hc : s'.chats = s.chats)
    (hn : ∀ n ∈ s'.rowCounts, n ∈ s.rowCounts ∨ n = s.chats.length) (hf : s'.fault = s.fault) :
    RowsInv (es ++ [e]) s' := by
  have hde : dictionaries (es ++ [e]) = dictionaries es := by rw [dictionaries_snoc, hd, List.append_nil]
  have hre : requests (es ++ [e]) = requests es := by rw [requests_snoc, hr, List.append_nil]
  refine ⟨?_, ?_, ?_, ?_⟩
  · rw [hc, hde]; exact hi.chats
  · intro n hmem
    rw [hde]
    rcases hn n hmem with h | rfl
    · exact hi.counts n h
    · simp [hi.chats]
  · rw [hde, hre]; exact hi.rows
  · rw [hf, hde, hre]; exact hi.fault

/-- A delivered value: the array grows at its end, so the rows requested before keep their records. -/
theorem RowsInv.childAdded {es : List TableEvent} {s : Table} (hi : RowsInv es s) (value : Node) :
    RowsInv (es ++ [.childAdded value])
      { s with chats := HomeViewController.observeMessages s.chats value } := by
  have hde : dictionaries (es ++ [.childAdded value]) = dictionaries es ++ value.asDict.toList := by
    rw [dictionaries_snoc]
    cases h : value.asDict <;> simp [dictionaries, h]
  have hre : requests (es ++ [.childAdded value]) = requests es := by rw [requests_snoc]; simp [requests]
  have hlen : (dictionaries es).length ≤ (dictionaries (es ++ [.childAdded value])).length := by
    rw [hde]; simp
  refine ⟨?_, fun n hn => (hi.counts n hn).trans hlen, ?_, ?_⟩
  · simp only [HomeViewController.observeMessages_eq, hi.chats, hde, HomeViewController.chat?]
    cases value.asDict <;> simp
  · intro row hrow
    rw [hre] at hrow
    exact (hi.rows row hrow).trans_le hlen
  · rw [hre]
    refine hi.fault.trans (forall₂_congr fun row hrow => ?_)
    rw [hde, List.getElem?_append_left (hi.rows row hrow)]

/-- A request: it raises iff the record of the row is not accepted. -/
theorem RowsInv.cellForRowAt {es : List TableEvent} {s s' : Table} {i row : Nat} (hi : RowsInv es s)
    (hf : s.fault = none) (hrow : row < (dictionaries es).length) (hc : s'.chats = s.chats)
    (hn : s'.rowCounts = s.rowCounts)
    (hfault : s'.fault = none ↔ ∃ chat ref, HomeViewController.cellForRowAt s.chats row = .ok (chat, ref)) :
    RowsInv (es ++ [.cellForRowAt i row]) s' := by
  have hde : dictionaries (es ++ [.cellForRowAt i row]) = dictionaries es := by
    rw [dictionaries_snoc]; simp [dictionaries]
  have hre : requests (es ++ [.cellForRowAt i row]) = requests es ++ [row] := by
    rw [requests_snoc]; simp [requests]
  refine ⟨?_, ?_, ?_, ?_⟩
  · rw [hc, hde]; exact hi.chats
  · rw [hn, hde]; exact hi.counts
  · rw [hde, hre]
    intro r hr
    rcases List.mem_append.1 hr with hr | hr
    · exact hi.rows r hr
    · rw [List.mem_singleton.1 hr]; exact hrow
  · rw [hfault, hde, hre]
    have hget : (dictionaries es)[row]? = some (dictionaries es)[row] := List.getElem?_eq_getElem hrow
    have hchat : s.chats[row]? = some (HomeViewController.chat (dictionaries es)[row]) := by
      rw [hi.chats, List.getElem?_map, hget]; rfl
    constructor
    · rintro ⟨chat, ref, hok⟩ r hr
      rcases List.mem_append.1 hr with hr | hr
      · exact hi.fault.1 hf r hr
      · obtain ⟨hrec, hv, -⟩ := HomeViewController.cellForRowAt_eq_ok.1 hok
        cases hchat.symm.trans hrec
        rw [List.mem_singleton.1 hr]
        exact ⟨_, hget, (accepted_iff _).2 hv⟩
    · intro hall
      obtain ⟨dict, hd, ha⟩ := hall row (by simp)
      cases hget.symm.trans hd
      exact ⟨_, _, HomeViewController.cellForRowAt_eq_ok.2 ⟨hchat, (accepted_iff _).1 ha, rfl⟩⟩

theorem step_rows {db : Node} {es : List TableEvent} {e : TableEvent} {s s' : Table} (hi : RowsInv es s)
    (h : s.step db e = some s') : RowsInv (es ++ [e]) s' := by
  obtain ⟨hf, ⟨value, rfl, rfl⟩ | ⟨rfl, rfl⟩ | ⟨i, row, rfl, -, ⟨n, hn, hlt⟩, hres⟩ | ⟨i, rfl, rfl⟩ |
    ⟨i, receiver, rfl, -, rfl⟩⟩ := step_cases h
  · exact hi.childAdded value
  · refine hi.idle rfl rfl rfl ?_ rfl
    intro n hn
    rcases List.mem_cons.1 hn with rfl | hn
    · exact Or.inr rfl
    · exact Or.inl hn
  · have hrow : row < (dictionaries es).length := hlt.trans_le (hi.counts n hn)
    rcases hres with ⟨chat, ref, hok, rfl⟩ | ⟨f, herr, rfl⟩
    · exact hi.cellForRowAt hf hrow rfl rfl (by simp [configure, hf, hok])
    · exact hi.cellForRowAt hf hrow rfl rfl (by simp [herr])
  · exact hi.idle rfl rfl rfl (fun n hn => Or.inl hn) rfl
  · exact hi.idle rfl rfl rfl (fun n hn => Or.inl hn) rfl

theorem run_rows {db : Node} {es : List TableEvent} {s : Table} (h : run (step db) initial es = some s) :
    RowsInv es s :=
  run_hist RowsInv.initial (fun _ _ _ _ _ hi hs => step_rows hi hs) h

/-- A row below a count that was ever returned is in bounds. -/
theorem row_in_bounds {db : Node} {es : List TableEvent} {s : Table} (h : run (step db) initial es = some s)
    {row : Nat} (hrow : ∃ n ∈ s.rowCounts, row < n) : row < s.chats.length := by
  obtain ⟨n, hn, hlt⟩ := hrow
  have := (run_rows h).counts n hn
  rw [(run_rows h).chats, List.length_map]
  omega

/-- **The records that crash Home.** A run raises no exception iff the record of every row it asks for has a `receiver`
string that is not empty and contains none of `. # $ [ ]`. -/
theorem rows_safe_iff {db : Node} {es : List TableEvent} {s : Table} (h : run (step db) initial es = some s) :
    s.fault = none ↔ ∀ row ∈ requests es, ∃ dict, (dictionaries es)[row]? = some dict ∧ Accepted dict :=
  (run_rows h).fault

/-- A message to `bob` is shown without an exception. -/
theorem rows_safe_bob : ∃ s, run (step .empty) initial [.childAdded (.node [("receiver", Node.string "bob")]),
    .reloadData, .cellForRowAt 0 0] = some s ∧ s.fault = none := by
  have hrun : ∃ s, run (step .empty) initial [.childAdded (.node [("receiver", Node.string "bob")]), .reloadData,
    .cellForRowAt 0 0] = some s := ⟨_, rfl⟩
  obtain ⟨s, hs⟩ := hrun
  refine ⟨s, hs, (rows_safe_iff hs).2 ?_⟩
  intro row hrow
  obtain rfl : row = 0 := by simpa [requests] using hrow
  exact ⟨[("receiver", Node.string "bob")], rfl, "bob", rfl, by decide, by simp⟩

/-- A record without a receiver is decoded with the empty one, and `child` raises on it. -/
theorem rows_missing_receiver : ∃ s, run (step .empty) initial
    [.childAdded (.node [("message", Node.string "hi")]), .reloadData, .cellForRowAt 0 0] = some s ∧
    s.fault = some (.exception "InvalidPathValidation"
      "(child:) Must be a non-empty string and not contain '.' '#' '$' '[' or ']'") :=
  ⟨_, rfl, by decide⟩

end ChatApp.Table
