import ChatApp.Register.Users

/-!
# Is a registration all or nothing?

The account is the first thing a registration creates. No completion handler removes it again, so every early return
after `createUser` leaves an account without a record behind, signed in, and its email taken.

- `AllOrNothing`: every account that was created has its record, and an attempt without a record has changed nothing;
  both are told by the events of the run, the presses and the answers;
- `Completes`: the step does not end an attempt after its account was created;
- `step_abandoned_iff`: exactly the steps that do not complete abandon an attempt;
- `allOrNothing_iff`: a run is all or nothing iff all its steps complete.
-/

namespace ChatApp

open Lib Lib.Runs RegisterViewController

/-- A record that holds what was typed at a press of the register button. -/
def RegisterEvent.Holds {C Image : Type} : RegisterEvent C Image → Node → Prop
  | registerButtonPressed _ (some username) (some email) (some password) (some _), value =>
    ∃ dict, value.asDict = some dict ∧ dict.string? User.Const.username = some username ∧
      dict.string? User.Const.email = some email ∧ dict.string? User.Const.password = some password
  | _, _ => False

/-- The attempt that a step belongs to. -/
def RegisterEvent.attempt? {C Image : Type} (s : Registrations C) : RegisterEvent C Image → Option Nat
  | registerButtonPressed _ _ _ _ _ => some s.attempts.length
  | createUserAnswered i _ | createUserCallback i _ | putDataAnswered i _ | downloadURLAnswered i _
  | updateChildValuesAnswered i _ => some i
  | handleSendMessage _ _ _ _ _ => none

namespace Registrations

variable {C Image Data : Type} [DecidableEq C]

/-- The accounts, the signed-in users and the records of the users are the same. -/
def Unchanged (s s' : Registrations C) : Prop :=
  s'.accounts = s.accounts ∧ s'.currentUser = s.currentUser ∧ s'.users = s.users

/-- A step of the attempt `i` changes nothing. -/
def LeavesUnchanged (jpegData : Image → Option Data) (i : Nat) (s : Registrations C) (e : RegisterEvent C Image) :
    Prop :=
  e.attempt? s = some i → ∀ s', s.step jpegData e = some s' → Unchanged s s'

/-- After the run of `es` from `s₀` to `s`: every new account has the record of the press that has created it, and the
attempts that did not end with a record have left everything as it was. -/
structure AllOrNothing (jpegData : Image → Option Data) (s₀ : Registrations C) (es : List (RegisterEvent C Image))
    (s : Registrations C) : Prop where
  all : ∀ account ∈ s.accounts, account ∉ s₀.accounts → ∃ i press, (presses es)[i]? = some press ∧
    Created es i account.uid ∧ press.Holds (s.userRecord account.uid.val)
  nothing : ∀ i press, (presses es)[i]? = some press →
    (¬∃ uid, Created es i uid ∧ press.Holds (s.userRecord uid.val)) →
    Along (step jpegData) (LeavesUnchanged jpegData i) s₀ es

/-- The step goes on with its attempt, or no account was created: `createUser` reports no error for an account that is
there, the image has JPEG data, the calls succeed and the strings can be stored. -/
def Completes (jpegData : Image → Option Data) (s : Registrations C) : RegisterEvent C Image → Prop
  | .createUserAnswered _ answer => ∀ uid, answer ≠ .errorAfterSignUp uid
  | .createUserCallback i image =>
    ∀ a uid, s.attempts[i]? = some a → a.stage = .created (.authResult uid) → image.bind jpegData ≠ none
  | .putDataAnswered _ success | .updateChildValuesAnswered _ success => success = true
  | .downloadURLAnswered i url =>
    ∀ a, s.attempts[i]? = some a → ∃ u, url = some u ∧ Fits a.username a.email a.password u
  | _ => True

variable {jpegData : Image → Option Data} {s s' : Registrations C} {e : RegisterEvent C Image}

/-! ## Abandoned attempts -/

omit [DecidableEq C] in
/-- An attempt moves on: it is the only one that can be abandoned by this, and it does not come back. -/
theorem abandoned_advance (stage : Stage) {i : Nat} {a : Attempt C} (ha : s.attempts[i]? = some a)
    (hs : a.stage.Abandoned → stage.Abandoned) : (∀ b ∈ (s.advance i a stage).attempts, ¬b.stage.Abandoned) ↔
      (∀ b ∈ s.attempts, ¬b.stage.Abandoned) ∧ ¬stage.Abandoned := by
  have hlt := (List.getElem?_eq_some_iff.1 ha).1
  constructor
  · intro h
    have hstage : ¬stage.Abandoned := h { a with stage := stage } (List.mem_set hlt _)
    refine ⟨fun b hb => ?_, hstage⟩
    obtain ⟨j, hj⟩ := List.mem_iff_getElem?.1 hb
    by_cases hij : i = j
    · subst hij
      cases ha.symm.trans hj
      exact fun hab => hstage (hs hab)
    · refine h b (List.mem_of_getElem? (i := j) ?_)
      rw [advance, List.getElem?_set_ne hij, hj]
  · rintro ⟨hall, hst⟩ b hb
    rcases List.mem_or_eq_of_mem_set hb with hb | rfl
    · exact hall b hb
    · exact hst

/-- An answer of `createUser` abandons its attempt iff it is an error for an account that is there. -/
theorem abandoned_created (answer : CreateUserAnswer) :
    ¬(Stage.created answer).Abandoned ↔ ∀ uid, answer ≠ .errorAfterSignUp uid := by
  cases answer <;> simp [Stage.Abandoned]

/-- **One step** abandons no attempt iff it completes. -/
theorem step_abandoned_iff (h : s.step jpegData e = some s') : (∀ a ∈ s'.attempts, ¬a.stage.Abandoned) ↔
    (∀ a ∈ s.attempts, ¬a.stage.Abandoned) ∧ Completes jpegData s e := by
  have hmove := move_of_step h
  cases hmove with
  | pressed => simp [Completes, Stage.Abandoned, or_imp, forall_and]
  | formNotValid => simp [Completes]
  | @createUserFailed i a answer ha hs hn =>
    rw [abandoned_advance _ ha (by rw [hs]; exact False.elim), abandoned_created]
    exact Iff.rfl
  | @accountCreated i a answer uid ha hs hu hav =>
    refine (abandoned_advance (.created answer) ha (by rw [hs]; exact False.elim)).trans ?_
    rw [abandoned_created]
    exact Iff.rfl
  | @createUserCallback i a answer image ha hs =>
    have hc : Completes jpegData s (.createUserCallback i image) ↔
        ∀ uid, answer = .authResult uid → image.bind jpegData ≠ none := by
      constructor
      · rintro hc uid rfl
        exact hc a uid ha hs
      · intro hc b uid hb hst
        cases ha.symm.trans hb
        exact hc uid (Stage.created.inj (hs.symm.trans hst))
    rw [hc]
    rcases createUserCompleted_cases jpegData answer image with ⟨hn, he⟩ | ⟨uid, rfl, ⟨hd, he⟩ | ⟨hd, he⟩⟩
    · -- an error stops the attempt, which was abandoned before if its account is there
      have hsame : (Stage.stopped answer.account).Abandoned ↔ (Stage.created answer).Abandoned := by
        cases answer <;> simp_all [Stage.Abandoned, CreateUserAnswer.account, CreateUserAnswer.authResult?]
      have hnot : ∀ uid, answer ≠ .authResult uid := by
        rintro uid rfl
        cases hn
      rw [he, abandoned_advance _ ha (by rw [hs]; exact hsame.2), hsame]
      refine and_congr_right fun hall => ?_
      have hbefore := hall a (List.mem_of_getElem? ha)
      rw [hs] at hbefore
      simp [hbefore, hnot]
    · rw [he, abandoned_advance _ ha (by rw [hs]; exact False.elim)]
      simp [Stage.Abandoned, hd]
    · rw [he, abandoned_advance _ ha (by rw [hs]; exact False.elim)]
      simp [Stage.Abandoned, hd]
  | @putDataAnswered i a uid success ha hs =>
    rw [abandoned_advance _ ha (by rw [hs]; exact False.elim)]
    cases success <;> simp [putDataCompleted, Completes, Stage.Abandoned]
  | @downloadURLAnswered i a uid url ha hs =>
    rw [abandoned_advance _ ha (by rw [hs]; exact False.elim)]
    refine and_congr_right fun _ => ?_
    have hc : Completes jpegData s (.downloadURLAnswered i url) ↔
        ∃ u, url = some u ∧ Fits a.username a.email a.password u := by
      simp only [Completes, ha, Option.some.injEq, forall_eq']
    rw [hc]
    rcases downloadURLCompleted_cases a.username a.email a.password uid url with
      ⟨u, rfl, hf, he⟩ | ⟨hf, he | ⟨f, he⟩⟩
    · simp [he, Stage.Abandoned, hf]
    · simpa [he, Stage.Abandoned] using hf
    · simpa [he, Stage.Abandoned] using hf
  | updateAccepted ha hs =>
    refine (abandoned_advance (.recorded _ _) ha (by rw [hs]; exact False.elim)).trans ?_
    simp [Completes, Stage.Abandoned]
  | updateRejected ha hs =>
    rw [abandoned_advance _ ha (by rw [hs]; exact False.elim)]
    simp [updateCompleted, Completes, Stage.Abandoned]
  | sent => simp [Completes]
  | sendRaised => simp [Completes]

/-! ## Accounts -/

/-- The accounts that were not there at the start are those of the attempts. -/
structure NewAccounts (s₀ s : Registrations C) : Prop where
  kept : ∀ account ∈ s₀.accounts, account ∈ s.accounts
  owned : ∀ account ∈ s.accounts, account ∉ s₀.accounts → ∃ i, s.Owns i account.uid
  owner : ∀ {i uid}, s.Owns i uid → ∃ account ∈ s.accounts, account ∉ s₀.accounts ∧ account.uid = uid

theorem move_newAccounts {s₀ : Registrations C} (hn : NewAccounts s₀ s) (h : Move jpegData s e s') :
    NewAccounts s₀ s' := by
  rcases move_owns h with ⟨hacc, howns, -⟩ | ⟨i, a, answer, uid, -, hu, ha, hs, hav, rfl⟩
  · refine ⟨fun account hm => hacc ▸ hn.kept account hm, fun account hm hno => ?_, fun ho => ?_⟩
    · obtain ⟨i, hi⟩ := hn.owned account (hacc ▸ hm) hno
      exact ⟨i, (howns i _).2 hi⟩
    · rw [hacc]
      exact hn.owner ((howns _ _).1 ho)
  · refine ⟨fun account hm => List.mem_append_left _ (hn.kept account hm), fun account hm hno => ?_, fun ho => ?_⟩
    · rcases List.mem_append.1 hm with hm | hm
      · obtain ⟨j, hj⟩ := hn.owned account hm hno
        exact ⟨j, (owns_createUser ha hs hu).2 (Or.inl hj)⟩
      · rw [List.mem_singleton.1 hm]
        exact ⟨i, (owns_createUser ha hs hu).2 (Or.inr ⟨rfl, rfl⟩)⟩
    · rcases (owns_createUser ha hs hu).1 ho with ho | ⟨rfl, rfl⟩
      · obtain ⟨account, hm, hno, he⟩ := hn.owner ho
        exact ⟨account, List.mem_append_left _ hm, hno, he⟩
      · refine ⟨_, List.mem_append_right _ List.mem_cons_self, fun hold => ?_, rfl⟩
        exact (hav.1 _ (hn.kept _ hold)).2 rfl

theorem run_newAccounts {s₀ : Registrations C} {es : List (RegisterEvent C Image)} (h₀ : s₀.attempts = [])
    (h : run (step jpegData) s₀ es = some s) : NewAccounts s₀ s := by
  refine run_inv (I := NewAccounts s₀) (fun _ _ _ hn hs => move_newAccounts hn (move_of_step hs)) h ?_
  exact ⟨fun _ hm => hm, fun account hm hno => absurd hm hno, by simp [Owns, h₀]⟩

/-! ## Attempts without an account -/

/-- The attempt `i` has no account, if there is such an attempt. -/
def NoAccount (s : Registrations C) (i : Nat) : Prop := ∀ uid, ¬s.Owns i uid

/-- An account stays. -/
theorem move_noAccount {i : Nat} (h : Move jpegData s e s') (hn : s'.NoAccount i) : s.NoAccount i := by
  intro uid ho
  rcases move_owns h with ⟨-, howns, -⟩ | ⟨j, a, answer, u, -, hu, ha, hs, -, rfl⟩
  · exact hn uid ((howns i uid).2 ho)
  · exact hn uid ((owns_createUser ha hs hu).2 (Or.inl ho))

/-- The steps of an attempt that has no account afterwards change nothing. -/
theorem move_unchanged {i : Nat} (h : Move jpegData s e s') (he : e.attempt? s = some i) (hn : s'.NoAccount i) :
    Unchanged s s' := by
  cases h with
  | @accountCreated j a answer uid ha hs hu hav =>
    cases he
    exact absurd ((owns_createUser ha hs hu).2 (Or.inr ⟨rfl, rfl⟩)) (hn uid)
  | @updateAccepted j a uid url ref ha hs =>
    cases he
    exact absurd ⟨_, List.getElem?_set_self (List.getElem?_eq_some_iff.1 ha).1, rfl⟩ (hn uid)
  | sent | sendRaised => cases he
  | _ => exact ⟨rfl, rfl, rfl⟩

/-- **An attempt without an account** has changed nothing in the whole run. -/
theorem along_leavesUnchanged {s₀ : Registrations C} {es : List (RegisterEvent C Image)}
    (h : run (step jpegData) s₀ es = some s) {i : Nat} (hn : s.NoAccount i) :
    Along (step jpegData) (LeavesUnchanged jpegData i) s₀ es := by
  refine run_hist (R := fun es s => s.NoAccount i → Along (step jpegData) (LeavesUnchanged jpegData i) s₀ es)
    (fun _ => trivial) (fun es e t t' hr ih hs hn' => ?_) h hn
  have hmove := move_of_step hs
  refine (along_snoc hr).2 ⟨ih (move_noAccount hmove hn'), fun he u hu => ?_⟩
  cases hs.symm.trans hu
  exact move_unchanged hmove he hn'

/-! ## The whole run -/

omit [DecidableEq C] in
/-- An abandoned attempt that is over has an account and no record. -/
theorem RecordInv.abandoned (hi : RecordInv s) {a : Attempt C} (ha : a ∈ s.attempts) (hs : a.stage.Abandoned) :
    ∃ i uid, s.Owns i uid ∧ s.userRecord uid.val = .empty := by
  obtain ⟨i, ha⟩ := List.mem_iff_getElem?.1 ha
  obtain ⟨uid, hu, hr⟩ : ∃ uid, a.stage.uid? = some uid ∧ a.record = .empty := by
    unfold Attempt.record
    cases hst : a.stage with
    | created answer =>
      cases answer with
      | errorAfterSignUp uid => exact ⟨uid, rfl, rfl⟩
      | error => rw [hst] at hs; exact hs.elim
      | authResult uid => rw [hst] at hs; exact hs.elim
    | stopped account =>
      cases account with
      | none => rw [hst] at hs; exact hs.elim
      | some uid => exact ⟨uid, rfl, rfl⟩
    | raised uid f => exact ⟨uid, rfl, rfl⟩
    | _ => rw [hst] at hs; exact hs.elim
  exact ⟨i, uid, ⟨a, ha, hu⟩, (hi.stored ha hu).trans hr⟩

omit [DecidableEq C] in
/-- There is no record where nothing is stored. -/
theorem not_holds_empty (press : RegisterEvent C Image) : ¬press.Holds .empty := by
  unfold RegisterEvent.Holds
  split
  · rintro ⟨dict, hd, -⟩
    cases hd
  · exact id

omit [DecidableEq C] in
/-- The record of an attempt holds what was typed at its press. -/
theorem RecordInv.holds (hi : RecordInv s) {i : Nat} {a : Attempt C} (ha : s.attempts[i]? = some a) {uid : Uid}
    {url : String} (hs : a.stage = .recorded uid url) {press : RegisterEvent C Image} (hp : a.PressedBy press) :
    press.Holds (s.userRecord uid.val) := by
  obtain ⟨confirmPassword, rfl⟩ := hp
  rw [hi.stored ha (by rw [hs]; rfl), Attempt.record, hs]
  refine ⟨_, asDict_userNode .., ?_, ?_, ?_⟩ <;>
    simp [Dict.string?, List.lookup_cons, User.Const.email, User.Const.password, User.Const.username,
      User.Const.profileImageURL]

/-- The attempts of a run that are abandoned are those with a step that does not complete. -/
theorem run_abandoned_iff {s₀ : Registrations C} {es : List (RegisterEvent C Image)} (h₀ : s₀.attempts = [])
    (h : run (step jpegData) s₀ es = some s) :
    (∀ a ∈ s.attempts, ¬a.stage.Abandoned) ↔ Along (step jpegData) (Completes jpegData) s₀ es := by
  rw [run_iff_along (I := fun s => ∀ a ∈ s.attempts, ¬a.stage.Abandoned) (P := Completes jpegData)
    (fun _ _ _ hs => step_abandoned_iff hs) h]
  simp [h₀]

/-- An attempt that is over was recorded, or its account was never created. -/
theorem recorded_of_settled {stage : Stage} (hq : ¬stage.InFlight) (hn : ¬stage.Abandoned) {uid : Uid}
    (hu : stage.uid? = some uid) : ∃ url, stage = .recorded uid url := by
  cases stage with
  | recorded uid' url =>
    cases hu
    exact ⟨url, rfl⟩
  | stopped account =>
    cases hu
    exact absurd trivial hn
  | raised uid' f => exact absurd trivial hn
  | _ => exact absurd trivial hq

/-- **Registration is all or nothing** in a run that has come to rest iff no step of it ends an attempt whose account
was created: `createUser` reports no error after the sign-up, the image has JPEG data, `putData`, `downloadURL` and
`updateChildValues` succeed, and no string is too long for the database. -/
theorem allOrNothing_iff {s₀ : Registrations C} {es : List (RegisterEvent C Image)} (h₀ : s₀.attempts = [])
    (h : run (step jpegData) s₀ es = some s) (hq : ∀ a ∈ s.attempts, ¬a.stage.InFlight) :
    AllOrNothing jpegData s₀ es s ↔ Along (step jpegData) (Completes jpegData) s₀ es := by
  have hinv := run_recordInv h₀ h
  have htraced := run_traced h₀ h
  have hnew := run_newAccounts h₀ h
  rw [← run_abandoned_iff h₀ h]
  constructor
  · intro hall a ha hs
    obtain ⟨i, uid, howns, hempty⟩ := hinv.abandoned ha hs
    obtain ⟨account, hm, hno, rfl⟩ := hnew.owner howns
    obtain ⟨j, press, -, -, hholds⟩ := hall.all account hm hno
    rw [hempty] at hholds
    exact not_holds_empty press hholds
  · intro hnone
    have hrecorded : ∀ {i : Nat} {a : Attempt C} {uid : Uid}, s.attempts[i]? = some a → a.stage.uid? = some uid →
        ∃ url, a.stage = .recorded uid url := by
      intro i a uid ha hu
      have hmem := List.mem_of_getElem? ha
      exact recorded_of_settled (hq a hmem) (hnone a hmem) hu
    refine ⟨fun account hm hno => ?_, fun i press hpress hno => ?_⟩
    · obtain ⟨i, a, ha, hu⟩ := hnew.owned account hm hno
      obtain ⟨url, hs⟩ := hrecorded ha hu
      obtain ⟨press, hpress, hpressed⟩ := htraced.press ha
      exact ⟨i, press, hpress, (run_owns h₀ h i _).2 ⟨a, ha, hu⟩, hinv.holds ha hs hpressed⟩
    · obtain ⟨a, ha, hpressed⟩ := htraced.attempt hpress
      refine along_leavesUnchanged h fun uid howns => hno ⟨uid, (run_owns h₀ h i uid).2 howns, ?_⟩
      obtain ⟨b, hb, hu⟩ := howns
      cases ha.symm.trans hb
      obtain ⟨url, hs⟩ := hrecorded ha hu
      exact hinv.holds ha hs hpressed

/-- A registration whose calls all succeed. -/
theorem allOrNothing_me : ∃ s, run (step (fun u : Unit => some u)) (unused Unit)
      (registering ⟨"u1", by decide⟩ ++ [.updateChildValuesAnswered 0 true]) = some s ∧
    AllOrNothing (fun u : Unit => some u) (unused Unit)
      (registering ⟨"u1", by decide⟩ ++ [.updateChildValuesAnswered 0 true]) s := by
  have hrun : ∃ s, run (step (fun u : Unit => some u)) (unused Unit)
      (registering ⟨"u1", by decide⟩ ++ [.updateChildValuesAnswered 0 true]) = some s ∧
      s.attempts = [⟨(), "me", "me@mail.org", "secret", .recorded ⟨"u1", by decide⟩ "https://pictures/me.jpg"⟩] :=
    ⟨_, rfl, rfl⟩
  obtain ⟨s, hs, ha⟩ := hrun
  refine ⟨s, hs, (allOrNothing_iff rfl hs ?_).2 ((run_abandoned_iff rfl hs).1 ?_)⟩
  · simp [ha, Stage.InFlight]
  · simp [ha, Stage.Abandoned]

/-- The upload of the picture fails: the account stays, is signed in and has no record. -/
theorem allOrNothing_upload_fails : ∃ s, run (step (fun u : Unit => some u)) (unused Unit)
      [.registerButtonPressed () (some "me") (some "me@mail.org") (some "secret") (some "secret"),
        .createUserAnswered 0 (.authResult ⟨"u1", by decide⟩), .createUserCallback 0 (some ()),
        .putDataAnswered 0 false] = some s ∧
    (∀ a ∈ s.attempts, ¬a.stage.InFlight) ∧ s.currentUser () = some ⟨"u1", by decide⟩ ∧
    ¬AllOrNothing (fun u : Unit => some u) (unused Unit)
      [.registerButtonPressed () (some "me") (some "me@mail.org") (some "secret") (some "secret"),
        .createUserAnswered 0 (.authResult ⟨"u1", by decide⟩), .createUserCallback 0 (some ()),
        .putDataAnswered 0 false] s := by
  refine ⟨_, rfl, ?_, rfl, fun hall => ?_⟩
  · intro a ha
    rw [List.mem_singleton.1 ha]
    exact id
  · obtain ⟨i, press, -, -, hholds⟩ := hall.all _ List.mem_cons_self List.not_mem_nil
    exact not_holds_empty press hholds

end Registrations

end ChatApp
