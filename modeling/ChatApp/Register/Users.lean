import ChatApp.Register.Flow
import Mathlib.Data.List.Forall2

/-!
# The records of the users

Every record under `users` was written by one registration as a whole.

- `RecordInv`: under the uid of every attempt there is exactly what that attempt has stored; no two attempts have the
  same uid;
- `Sourced`: nothing else is under `users`, when the database was empty at the start;
- `move_owns`: an account comes with an answer of `createUser` and stays with its attempt;
- `Traced`: an attempt is one press of the button, and its uid and its URL are the answers to its calls;
- `newMessage_users`: the list of New Message has one user for every record;
- `user_records_readable`: all readers of a record get the user that was registered, and none of them traps.
-/

namespace ChatApp

open Lib Lib.Runs

/-- A press of the register button that finds all four texts. -/
def RegisterEvent.isPress {C Image : Type} : RegisterEvent C Image → Bool
  | registerButtonPressed _ (some _) (some _) (some _) (some _) => true
  | _ => false

/-- The event is the press of the attempt: this client, and these strings typed. -/
def Attempt.PressedBy {C Image : Type} (a : Attempt C) (e : RegisterEvent C Image) : Prop :=
  ∃ confirmPassword, e = .registerButtonPressed a.client (some a.username) (some a.email) (some a.password)
    (some confirmPassword)

/-- What the attempt has stored under its uid. -/
def Attempt.record {C : Type} (a : Attempt C) : Node :=
  match a.stage with
  | .recorded _ url => RegisterViewController.userNode a.username a.email a.password url
  | _ => .empty

namespace RegisterViewController

variable {Image Data : Type}

theorem registerButtonPressed_eq_some {u e p cp : Option String} {username email password : String}
    (h : registerButtonPressed u e p cp = some (username, email, password)) :
    ∃ confirmPassword, u = some username ∧ e = some email ∧ p = some password ∧ cp = some confirmPassword := by
  unfold registerButtonPressed at h
  split at h
  · cases h
    exact ⟨_, rfl, rfl, rfl, rfl⟩
  · cases h

theorem registerButtonPressed_eq_none {C : Type} {c : C} {u e p cp : Option String}
    (h : registerButtonPressed u e p cp = none) :
    (RegisterEvent.registerButtonPressed c u e p cp : RegisterEvent C Image).isPress = false := by
  unfold registerButtonPressed at h
  split at h
  · cases h
  · rename_i hno
    unfold RegisterEvent.isPress
    split
    · rename_i heq
      cases heq
      exact (hno _ _ _ _ rfl rfl rfl rfl).elim
    · rfl

/-! ## What the completion handlers lead to -/

theorem createUserCompleted_cases (jpegData : Image → Option Data) (answer : CreateUserAnswer) (image : Option Image) :
    (answer.authResult? = none ∧ createUserCompleted jpegData answer image = .stopped answer.account) ∨
    ∃ uid, answer = .authResult uid ∧
      ((image.bind jpegData ≠ none ∧ createUserCompleted jpegData answer image = .putData uid) ∨
        (image.bind jpegData = none ∧ createUserCompleted jpegData answer image = .stopped (some uid))) := by
  cases answer with
  | error => exact Or.inl ⟨rfl, rfl⟩
  | errorAfterSignUp uid => exact Or.inl ⟨rfl, rfl⟩
  | authResult uid =>
    refine Or.inr ⟨uid, rfl, ?_⟩
    cases hd : image.bind jpegData with
    | none => exact Or.inr ⟨rfl, by simp [createUserCompleted, CreateUserAnswer.authResult?, hd]⟩
    | some data => exact Or.inl ⟨by simp, by simp [createUserCompleted, CreateUserAnswer.authResult?, hd]⟩

theorem downloadURLCompleted_cases (username email password : String) (uid : Uid) (url : Option String) :
    (∃ u, url = some u ∧ Fits username email password u ∧
      downloadURLCompleted username email password uid url = .updateChildValues uid u ⟨[Constant.users, uid.val]⟩) ∨
    ((∀ u, url = some u → ¬Fits username email password u) ∧
      (downloadURLCompleted username email password uid url = .stopped (some uid) ∨
        ∃ f, downloadURLCompleted username email password uid url = .raised uid f)) := by
  cases url with
  | none => exact Or.inr ⟨by simp, Or.inl rfl⟩
  | some u =>
    cases hok : handleAddUserIntoDatabaseWithUID uid (values username email password u) with
    | ok ref =>
      obtain ⟨hf, rfl⟩ := handleAddUserIntoDatabaseWithUID_eq_ok.1 hok
      exact Or.inl ⟨u, rfl, hf, by simp [downloadURLCompleted, hok]⟩
    | error f =>
      refine Or.inr ⟨fun v hv hf => ?_, Or.inr ⟨f, by simp [downloadURLCompleted, hok]⟩⟩
      cases hv
      cases hok.symm.trans (handleAddUserIntoDatabaseWithUID_eq_ok.2 ⟨hf, rfl⟩)

end RegisterViewController

namespace Registrations

open RegisterViewController

variable {C Image Data : Type} {s s' : Registrations C}

/-- No record but the one at `users/<uid>` sees an update of it. -/
theorem get_update_other {uid : Uid} {key : String} (hne : key ≠ uid.val) (values : List (String × Option String))
    (db : Node) : ((⟨[Constant.users, uid.val]⟩ : Ref).updateChildValues values db).get [Constant.users, key] =
      db.get [Constant.users, key] := by
  refine Ref.get_updateChildValues_of_not_prefix db values ?_ ?_
  · simpa using Ne.symm hne
  · simpa using hne

/-- The records of users do not see a message. -/
theorem get_users_send (key : String) (values : List (String × Option String)) (db : Node) (rest : List String) :
    ((⟨[Constant.chats, key]⟩ : Ref).updateChildValues values db).get (Constant.users :: rest) =
      db.get (Constant.users :: rest) := by
  refine Ref.get_updateChildValues_of_not_prefix db values ?_ ?_
  · simp [Constant.chats, Constant.users]
  · simp [Constant.chats, Constant.users]

/-- The attempts after one of them has moved on. -/
theorem attempts_advance {i j : Nat} {a b : Attempt C} {stage : Stage}
    (h : (s.advance i a stage).attempts[j]? = some b) :
    (j = i ∧ b = { a with stage := stage }) ∨ (j ≠ i ∧ s.attempts[j]? = some b) := by
  simp only [advance, List.getElem?_set] at h
  split at h
  · split at h
    · exact Or.inl ⟨by omega, (Option.some.inj h).symm⟩
    · cases h
  · exact Or.inr ⟨by omega, h⟩

/-- The attempts after a press. -/
theorem attempts_pressed {c : C} {username email password : String} {j : Nat} {b : Attempt C}
    (h : (s.attempts ++ [⟨c, username, email, password, .createUser⟩])[j]? = some b) :
    s.attempts[j]? = some b ∨ b.stage = .createUser := by
  rw [List.getElem?_append] at h
  split at h
  · exact Or.inl h
  · exact Or.inr (by rw [List.mem_singleton.1 (List.mem_of_getElem? h)])

/-! ## The records of the attempts -/

structure RecordInv (s : Registrations C) : Prop where
  stored : ∀ {i : Nat} {a : Attempt C} {uid : Uid}, s.attempts[i]? = some a →
    a.stage.uid? = some uid → s.userRecord uid.val = a.record
  target : ∀ {i : Nat} {a : Attempt C} {uid : Uid} {url : String} {ref : Ref}, s.attempts[i]? = some a →
    a.stage = .updateChildValues uid url ref → ref = ⟨[Constant.users, uid.val]⟩
  account : ∀ {i : Nat} {a : Attempt C} {uid : Uid}, s.attempts[i]? = some a →
    a.stage.uid? = some uid → ∃ account ∈ s.accounts, account.uid = uid
  distinct : ∀ {i j : Nat} {a b : Attempt C} {uid : Uid}, s.attempts[i]? = some a → s.attempts[j]? = some b →
    a.stage.uid? = some uid → b.stage.uid? = some uid → i = j

theorem RecordInv.initial (h : s.attempts = []) : RecordInv s := by
  constructor <;> simp [h]

/-- Only the database has changed, and not at the records of the attempts. -/
theorem RecordInv.frame (hi : RecordInv s) (ha : s'.attempts = s.attempts) (hc : s'.accounts = s.accounts)
    (hr : ∀ key, s'.userRecord key = s.userRecord key) : RecordInv s' := by
  refine ⟨fun h hu => ?_, fun h => ?_, fun h => ?_, fun h h' => ?_⟩
  · rw [hr]; exact hi.stored (ha ▸ h) hu
  · exact hi.target (ha ▸ h)
  · rw [hc]; exact hi.account (ha ▸ h)
  · exact hi.distinct (ha ▸ h) (ha ▸ h')

/-- An attempt moves on, keeps its uid and has still stored nothing. -/
theorem RecordInv.advance (hi : RecordInv s) {i : Nat} {a : Attempt C} {stage : Stage}
    (ha : s.attempts[i]? = some a) (hu : stage.uid? = a.stage.uid?)
    (hr : Attempt.record { a with stage := stage } = a.record)
    (ht : ∀ uid url ref, stage = .updateChildValues uid url ref → ref = ⟨[Constant.users, uid.val]⟩) :
    RecordInv (s.advance i a stage) := by
  -- every attempt of the new state has the uid and the record of the old attempt at its place
  have hold : ∀ {j : Nat} {b : Attempt C}, (s.advance i a stage).attempts[j]? = some b →
      ∃ b', s.attempts[j]? = some b' ∧ b.stage.uid? = b'.stage.uid? ∧ b.record = b'.record := by
    intro j b hb
    rcases attempts_advance hb with ⟨rfl, rfl⟩ | ⟨-, hb⟩
    · exact ⟨a, ha, hu, hr⟩
    · exact ⟨b, hb, rfl, rfl⟩
  refine ⟨fun h hb => ?_, fun h hs => ?_, fun h hb => ?_, fun h h' hb hb' => ?_⟩
  · obtain ⟨b', hj, huid, hrec⟩ := hold h
    rw [hrec]
    exact hi.stored hj (huid ▸ hb)
  · rcases attempts_advance h with ⟨-, rfl⟩ | ⟨-, h⟩
    · exact ht _ _ _ hs
    · exact hi.target h hs
  · obtain ⟨b', hj, huid, -⟩ := hold h
    exact hi.account hj (huid ▸ hb)
  · obtain ⟨b, hj, huid, -⟩ := hold h
    obtain ⟨c, hk, huid', -⟩ := hold h'
    exact hi.distinct hj hk (huid ▸ hb) (huid' ▸ hb')

theorem RecordInv.pressed (hi : RecordInv s) (c : C) (username email password : String) :
    RecordInv { s with attempts := s.attempts ++ [⟨c, username, email, password, .createUser⟩] } := by
  -- the new attempt has no uid yet
  have hold : ∀ {j : Nat} {b : Attempt C} {uid : Uid}, b.stage.uid? = some uid →
      (s.attempts ++ [⟨c, username, email, password, .createUser⟩])[j]? = some b → s.attempts[j]? = some b := by
    intro j b uid hu hb
    refine (attempts_pressed hb).resolve_right fun hs => ?_
    rw [hs] at hu
    cases hu
  exact ⟨fun h hb => hi.stored (hold hb h) hb, fun h hs => hi.target (hold (by rw [hs]; rfl) h) hs,
    fun h hb => hi.account (hold hb h) hb, fun h h' hb hb' => hi.distinct (hold hb h) (hold hb' h') hb hb'⟩

/-- The update writes the whole record of its attempt, and no other record. -/
theorem RecordInv.addUser (hi : RecordInv s) {i : Nat} {a : Attempt C} {uid : Uid} {url : String} {ref : Ref}
    (ha : s.attempts[i]? = some a) (hs : a.stage = .updateChildValues uid url ref) :
    RecordInv (s.addUser i a uid url ref) := by
  obtain rfl := hi.target ha hs
  have hempty : s.db.get [Constant.users, uid.val] = .empty := by
    have := hi.stored ha (by rw [hs]; rfl)
    rwa [Attempt.record, hs] at this
  refine ⟨fun {j b u} h hb => ?_, fun h hb => ?_, fun {j b u} h hb => ?_, fun {j k b c u} h h' hb hb' => ?_⟩
  · rcases attempts_advance h with ⟨-, rfl⟩ | ⟨hj, h⟩
    · cases hb
      exact get_updateChildValues_userNode (r := ⟨_⟩) hempty a.username a.email a.password url
    · have hne : u.val ≠ uid.val := by
        intro he
        rw [Uid.ext he] at hb
        exact hj (hi.distinct h ha hb (by rw [hs]; rfl))
      exact (get_update_other hne _ _).trans (hi.stored h hb)
  · rcases attempts_advance h with ⟨-, rfl⟩ | ⟨-, h⟩
    · cases hb
    · exact hi.target h hb
  · rcases attempts_advance h with ⟨-, rfl⟩ | ⟨-, h⟩
    · cases hb
      exact hi.account ha (by rw [hs]; rfl)
    · exact hi.account h hb
  · rcases attempts_advance h with ⟨rfl, rfl⟩ | ⟨-, hb₁⟩ <;> rcases attempts_advance h' with ⟨rfl, rfl⟩ | ⟨-, hc₁⟩
    · rfl
    · cases hb
      exact hi.distinct ha hc₁ (by rw [hs]; rfl) hb'
    · cases hb'
      exact hi.distinct hb₁ ha hb (by rw [hs]; rfl)
    · exact hi.distinct hb₁ hc₁ hb hb'

/-! ## Nothing else is under `users` -/

/-- Every record was written by an attempt. -/
def Sourced (s : Registrations C) : Prop :=
  ∀ key, s.userRecord key ≠ .empty → ∃ (i : Nat) (a : Attempt C) (uid : Uid) (url : String),
    s.attempts[i]? = some a ∧ a.stage = .recorded uid url ∧ uid.val = key

/-- An attempt that has not stored its record moves on. -/
theorem Sourced.advance (hi : Sourced s) {i : Nat} {a : Attempt C} (stage : Stage) (ha : s.attempts[i]? = some a)
    (hs : ∀ uid url, a.stage ≠ .recorded uid url) : Sourced (s.advance i a stage) := by
  intro key hk
  obtain ⟨j, b, uid, url, hb, hstage, hval⟩ := hi key hk
  refine ⟨j, b, uid, url, ?_, hstage, hval⟩
  have hne : i ≠ j := by
    rintro rfl
    cases ha.symm.trans hb
    exact hs uid url hstage
  simpa [Registrations.advance, List.getElem?_set_ne hne] using hb

/-! ## Where the strings come from -/

/-- The presses of the register button that start an attempt. -/
def presses (es : List (RegisterEvent C Image)) : List (RegisterEvent C Image) := es.filter RegisterEvent.isPress

/-- The attempts are the presses, and hold the answers to their own calls. -/
structure Traced (es : List (RegisterEvent C Image)) (attempts : List (Attempt C)) : Prop where
  pressed : List.Forall₂ Attempt.PressedBy attempts (presses es)
  returned : ∀ {i : Nat} {a : Attempt C} {uid : Uid}, attempts[i]? = some a → a.stage.returned? = some uid →
    .createUserAnswered i (.authResult uid) ∈ es
  downloaded : ∀ {i : Nat} {a : Attempt C} {url : String}, attempts[i]? = some a → a.stage.url? = some url →
    .downloadURLAnswered i (some url) ∈ es

variable {es : List (RegisterEvent C Image)} {e : RegisterEvent C Image}

theorem presses_snoc (es : List (RegisterEvent C Image)) (e : RegisterEvent C Image) :
    presses (es ++ [e]) = presses es ++ presses [e] := List.filter_append es [e]

/-- The press of an attempt. -/
theorem Traced.press {attempts : List (Attempt C)} (ht : Traced es attempts) {i : Nat} {a : Attempt C}
    (ha : attempts[i]? = some a) : ∃ e, (presses es)[i]? = some e ∧ a.PressedBy e := by
  obtain ⟨hlt, rfl⟩ := List.getElem?_eq_some_iff.1 ha
  have hlt' : i < (presses es).length := ht.pressed.length_eq ▸ hlt
  exact ⟨(presses es)[i], List.getElem?_eq_getElem hlt', ht.pressed.get hlt hlt'⟩

/-- The attempt of a press. -/
theorem Traced.attempt {attempts : List (Attempt C)} (ht : Traced es attempts) {i : Nat} {e : RegisterEvent C Image}
    (he : (presses es)[i]? = some e) : ∃ a, attempts[i]? = some a ∧ a.PressedBy e := by
  obtain ⟨hlt', rfl⟩ := List.getElem?_eq_some_iff.1 he
  have hlt : i < attempts.length := ht.pressed.length_eq ▸ hlt'
  exact ⟨attempts[i], List.getElem?_eq_getElem hlt, ht.pressed.get hlt hlt'⟩

theorem Traced.idle (ht : Traced es s.attempts) (hp : presses [e] = []) : Traced (es ++ [e]) s.attempts := by
  refine ⟨?_, fun h hu => List.mem_append_left _ (ht.returned h hu),
    fun h hu => List.mem_append_left _ (ht.downloaded h hu)⟩
  rw [presses_snoc, hp, List.append_nil]
  exact ht.pressed

/-- An entry is replaced by one that has its relations. -/
theorem forall₂_set {α β : Type} {R : α → β → Prop} {l : List α} {m : List β} (h : List.Forall₂ R l m) {i : Nat}
    {x y : α} (hy : l[i]? = some y) (hx : ∀ b, R y b → R x b) : List.Forall₂ R (l.set i x) m := by
  induction h generalizing i with
  | nil => exact .nil
  | cons hab hrest ih =>
    cases i with
    | zero =>
      cases hy
      exact .cons (hx _ hab) hrest
    | succ i => exact .cons hab (ih hy)

/-- An attempt moves on; a new uid or URL is the answer that made it move. -/
theorem Traced.advance (ht : Traced es s.attempts) (stage : Stage) {i : Nat} {a : Attempt C}
    (ha : s.attempts[i]? = some a) (hp : presses [e] = [])
    (hu : ∀ uid, stage.returned? = some uid →
      a.stage.returned? = some uid ∨ e = .createUserAnswered i (.authResult uid))
    (hurl : ∀ url, stage.url? = some url → a.stage.url? = some url ∨ e = .downloadURLAnswered i (some url)) :
    Traced (es ++ [e]) (s.advance i a stage).attempts := by
  have hidle := ht.idle hp
  refine ⟨forall₂_set hidle.pressed ha fun _ h => h, fun h hb => ?_, fun h hb => ?_⟩
  · rcases attempts_advance h with ⟨rfl, rfl⟩ | ⟨-, h⟩
    · rcases hu _ hb with hb | rfl
      · exact hidle.returned ha hb
      · simp
    · exact hidle.returned h hb
  · rcases attempts_advance h with ⟨rfl, rfl⟩ | ⟨-, h⟩
    · rcases hurl _ hb with hb | rfl
      · exact hidle.downloaded ha hb
      · simp
    · exact hidle.downloaded h hb

/-! ## Whose accounts there are -/

/-- The attempt `i` has created the account `uid`. -/
def Owns (s : Registrations C) (i : Nat) (uid : Uid) : Prop :=
  ∃ a, s.attempts[i]? = some a ∧ a.stage.uid? = some uid

/-- The call of `createUser` in the attempt `i` has created the account `uid`. -/
def Created (es : List (RegisterEvent C Image)) (i : Nat) (uid : Uid) : Prop :=
  ∃ answer, .createUserAnswered i answer ∈ es ∧ answer.account = some uid

theorem owns_advance {i j : Nat} {a : Attempt C} {stage : Stage} (ha : s.attempts[i]? = some a)
    (hu : stage.uid? = a.stage.uid?) (uid : Uid) : (s.advance i a stage).Owns j uid ↔ s.Owns j uid := by
  constructor
  · rintro ⟨b, hb, hbu⟩
    rcases attempts_advance hb with ⟨rfl, rfl⟩ | ⟨-, hb⟩
    · exact ⟨a, ha, hu ▸ hbu⟩
    · exact ⟨b, hb, hbu⟩
  · rintro ⟨b, hb, hbu⟩
    by_cases hij : i = j
    · subst hij
      cases ha.symm.trans hb
      exact ⟨_, List.getElem?_set_self (List.getElem?_eq_some_iff.1 ha).1, hu.trans hbu⟩
    · exact ⟨b, by rw [Registrations.advance, List.getElem?_set_ne hij, hb], hbu⟩

theorem owns_pressed {c : C} {username email password : String} {i : Nat} {uid : Uid} :
    Owns { s with attempts := s.attempts ++ [⟨c, username, email, password, .createUser⟩] } i uid ↔ s.Owns i uid := by
  constructor
  · rintro ⟨b, hb, hbu⟩
    rcases attempts_pressed hb with hb | hb
    · exact ⟨b, hb, hbu⟩
    · rw [hb] at hbu
      cases hbu
  · rintro ⟨b, hb, hbu⟩
    exact ⟨b, by simp [List.getElem?_append_left (List.getElem?_eq_some_iff.1 hb).1, hb], hbu⟩

/-! ## Runs -/

variable [DecidableEq C]

/-- A new uid has no record and belongs to no attempt. -/
theorem RecordInv.createUser (hi : RecordInv s) {i : Nat} {a : Attempt C} {answer : CreateUserAnswer} {uid : Uid}
    (hu : answer.account = some uid) (hav : s.Available a.email uid) : RecordInv (s.createUser i a answer uid) := by
  have hnew : ∀ {j : Nat} {b : Attempt C}, s.attempts[j]? = some b → b.stage.uid? ≠ some uid := by
    intro j b hb hbu
    obtain ⟨account, hm, he⟩ := hi.account hb hbu
    exact (hav.1 account hm).2 he
  have hself : ∀ {u : Uid}, (Stage.created answer).uid? = some u → u = uid :=
    fun hb => Option.some.inj (hb.symm.trans hu)
  refine ⟨fun {j b u} h hb => ?_, fun h hb => ?_, fun {j b u} h hb => ?_, fun {j k b c u} h h' hb hb' => ?_⟩
  · rcases attempts_advance h with ⟨-, rfl⟩ | ⟨-, h⟩
    · cases hself hb
      exact Tree.eq_empty_of_isEmpty hav.2
    · exact hi.stored h hb
  · rcases attempts_advance h with ⟨-, rfl⟩ | ⟨-, h⟩
    · cases hb
    · exact hi.target h hb
  · rcases attempts_advance h with ⟨-, rfl⟩ | ⟨-, h⟩
    · cases hself hb
      exact ⟨_, List.mem_append_right _ List.mem_cons_self, rfl⟩
    · obtain ⟨account, hm, he⟩ := hi.account h hb
      exact ⟨account, List.mem_append_left _ hm, he⟩
  · rcases attempts_advance h with ⟨rfl, rfl⟩ | ⟨-, hb₁⟩ <;> rcases attempts_advance h' with ⟨rfl, rfl⟩ | ⟨-, hc₁⟩
    · rfl
    · cases hself hb
      exact absurd hb' (hnew hc₁)
    · cases hself hb'
      exact absurd hb (hnew hb₁)
    · exact hi.distinct hb₁ hc₁ hb hb'

variable {jpegData : Image → Option Data}

theorem move_recordInv (hi : RecordInv s) (h : Move jpegData s e s') : RecordInv s' := by
  cases h with
  | pressed => exact hi.pressed _ _ _ _
  | formNotValid => exact hi
  | createUserFailed ha hs hn =>
    exact hi.advance ha (by rw [hs]; exact hn) (by simp [Attempt.record, hs]) (by simp)
  | accountCreated ha hs hu hav => exact hi.createUser hu hav
  | @createUserCallback i a answer image ha hs =>
    rcases createUserCompleted_cases jpegData answer image with ⟨-, he⟩ | ⟨uid, rfl, ⟨-, he⟩ | ⟨-, he⟩⟩ <;>
      rw [he] <;> exact hi.advance ha (by rw [hs]; rfl) (by simp [Attempt.record, hs]) (by simp)
  | @putDataAnswered i a uid success ha hs =>
    cases success <;> exact hi.advance ha (by rw [hs]; rfl) (by simp [Attempt.record, hs, putDataCompleted])
      (by simp [putDataCompleted])
  | @downloadURLAnswered i a uid url ha hs =>
    rcases downloadURLCompleted_cases a.username a.email a.password uid url with
      ⟨u, -, -, he⟩ | ⟨-, he | ⟨f, he⟩⟩ <;>
      rw [he] <;> exact hi.advance ha (by rw [hs]; rfl) (by simp [Attempt.record, hs]) (by simp)
  | updateAccepted ha hs => exact hi.addUser ha hs
  | updateRejected ha hs =>
    rw [updateCompleted]
    exact hi.advance ha (by rw [hs]; rfl) (by simp [Attempt.record, hs]) (by simp)
  | sent => exact hi.frame rfl rfl fun key => get_users_send _ _ _ [key]
  | sendRaised => exact hi

theorem run_recordInv {s₀ : Registrations C} (h₀ : s₀.attempts = [])
    (h : run (step jpegData) s₀ es = some s) : RecordInv s :=
  run_inv (fun _ _ _ hi hs => move_recordInv hi (move_of_step hs)) h (RecordInv.initial h₀)

theorem move_sourced (hinv : RecordInv s) (hi : Sourced s) (h : Move jpegData s e s') : Sourced s' := by
  cases h with
  | pressed =>
    intro key hk
    obtain ⟨j, b, uid, url, hb, hstage, hval⟩ := hi key hk
    exact ⟨j, b, uid, url, by simp [List.getElem?_append_left (List.getElem?_eq_some_iff.1 hb).1, hb], hstage, hval⟩
  | formNotValid => exact hi
  | createUserFailed ha hs hn => exact hi.advance _ ha (by simp [hs])
  | @accountCreated i a answer uid ha hs hu hav =>
    intro key hk
    exact hi.advance (.created answer) ha (by simp [hs]) key hk
  | createUserCallback ha hs => exact hi.advance _ ha (by simp [hs])
  | putDataAnswered ha hs => exact hi.advance _ ha (by simp [hs])
  | downloadURLAnswered ha hs => exact hi.advance _ ha (by simp [hs])
  | @updateAccepted i a uid url ref ha hs =>
    obtain rfl := hinv.target ha hs
    intro key hk
    by_cases hkey : key = uid.val
    · refine ⟨i, _, uid, url, List.getElem?_set_self (List.getElem?_eq_some_iff.1 ha).1, rfl, hkey.symm⟩
    · have hold : s.userRecord key ≠ .empty := by rwa [userRecord, addUser, get_update_other hkey] at hk
      exact hi.advance (updateCompleted uid url true) ha (by simp [hs]) key hold
  | updateRejected ha hs => exact hi.advance _ ha (by simp [hs])
  | sent =>
    intro key hk
    rw [userRecord, get_users_send] at hk
    exact hi key hk
  | sendRaised => exact hi

theorem move_traced (ht : Traced es s.attempts) (h : Move jpegData s e s') : Traced (es ++ [e]) s'.attempts := by
  cases h with
  | @pressed c u m p cp username email password hf =>
    obtain ⟨confirmPassword, rfl, rfl, rfl, rfl⟩ := registerButtonPressed_eq_some hf
    refine ⟨?_, fun h hb => ?_, fun h hb => ?_⟩
    · rw [presses_snoc]
      exact List.rel_append ht.pressed (.cons ⟨confirmPassword, rfl⟩ .nil)
    · rcases attempts_pressed h with h | h
      · exact List.mem_append_left _ (ht.returned h hb)
      · rw [h] at hb; cases hb
    · rcases attempts_pressed h with h | h
      · exact List.mem_append_left _ (ht.downloaded h hb)
      · rw [h] at hb; cases hb
  | formNotValid hf =>
    refine ht.idle (List.filter_eq_nil_iff.2 fun e he => ?_)
    rw [List.mem_singleton.1 he, registerButtonPressed_eq_none hf]
    exact Bool.false_ne_true
  | @createUserFailed i a answer ha hs hn =>
    refine ht.advance _ ha rfl (fun uid hu => ?_) (by simp [Stage.url?])
    cases answer <;> simp_all [Stage.returned?, CreateUserAnswer.authResult?, CreateUserAnswer.account]
  | @accountCreated i a answer uid ha hs hu hav =>
    refine ht.advance (.created answer) ha rfl (fun uid hu => ?_) (by simp [Stage.url?])
    cases answer <;> simp_all [Stage.returned?, CreateUserAnswer.authResult?]
  | @createUserCallback i a answer image ha hs =>
    rcases createUserCompleted_cases jpegData answer image with ⟨-, he⟩ | ⟨uid, rfl, ⟨-, he⟩ | ⟨-, he⟩⟩ <;>
      rw [he] <;> exact ht.advance _ ha rfl (by simp [hs, Stage.returned?, CreateUserAnswer.authResult?])
        (by simp [Stage.url?])
  | @putDataAnswered i a uid success ha hs =>
    cases success <;> exact ht.advance _ ha rfl (by simp [hs, putDataCompleted, Stage.returned?])
      (by simp [putDataCompleted, Stage.url?])
  | @downloadURLAnswered i a uid url ha hs =>
    rcases downloadURLCompleted_cases a.username a.email a.password uid url with
      ⟨u, rfl, -, he⟩ | ⟨-, he | ⟨f, he⟩⟩ <;>
      rw [he] <;> exact ht.advance _ ha rfl (by simp [hs, Stage.returned?]) (by simp [Stage.url?])
  | updateAccepted ha hs =>
    exact ht.advance (.recorded _ _) ha rfl (by simp [hs, Stage.returned?]) (by simp [hs, Stage.url?])
  | updateRejected ha hs =>
    exact ht.advance _ ha rfl (by simp [updateCompleted, Stage.returned?]) (by simp [updateCompleted, Stage.url?])
  | sent => exact ht.idle rfl
  | sendRaised => exact ht.idle rfl

/-- **An account comes with an answer of `createUser`** and stays with its attempt; nothing else changes the
accounts. -/
theorem move_owns (h : Move jpegData s e s') :
    (s'.accounts = s.accounts ∧ (∀ i uid, s'.Owns i uid ↔ s.Owns i uid) ∧ ∀ i uid, ¬Created [e] i uid) ∨
    ∃ i a answer uid, e = .createUserAnswered i answer ∧ answer.account = some uid ∧ s.attempts[i]? = some a ∧
      a.stage = .createUser ∧ s.Available a.email uid ∧ s' = s.createUser i a answer uid := by
  cases h with
  | pressed => exact Or.inl ⟨rfl, fun _ _ => owns_pressed, by simp [Created]⟩
  | createUserFailed ha hs hn =>
    refine Or.inl ⟨rfl, fun _ => owns_advance ha (by rw [hs]; exact hn), ?_⟩
    simp [Created, hn]
  | accountCreated ha hs hu hav => exact Or.inr ⟨_, _, _, _, rfl, hu, ha, hs, hav, rfl⟩
  | @createUserCallback i a answer image ha hs =>
    refine Or.inl ⟨rfl, fun _ => owns_advance ha ?_, by simp [Created]⟩
    rcases createUserCompleted_cases jpegData answer image with ⟨-, he⟩ | ⟨uid, rfl, ⟨-, he⟩ | ⟨-, he⟩⟩ <;>
      rw [he, hs] <;> rfl
  | @putDataAnswered i a uid success ha hs =>
    refine Or.inl ⟨rfl, fun _ => owns_advance ha ?_, by simp [Created]⟩
    rw [hs]
    cases success <;> rfl
  | @downloadURLAnswered i a uid url ha hs =>
    refine Or.inl ⟨rfl, fun _ => owns_advance ha ?_, by simp [Created]⟩
    rcases downloadURLCompleted_cases a.username a.email a.password uid url with
      ⟨u, rfl, -, he⟩ | ⟨-, he | ⟨f, he⟩⟩ <;> rw [he, hs] <;> rfl
  | @updateAccepted i a uid url ref ha hs =>
    have hu : (updateCompleted uid url true).uid? = a.stage.uid? := by rw [hs]; rfl
    have howns : ∀ j uid', (s.addUser i a uid url ref).Owns j uid' ↔ s.Owns j uid' := fun j => owns_advance ha hu
    exact Or.inl ⟨rfl, howns, by simp [Created]⟩
  | updateRejected ha hs => exact Or.inl ⟨rfl, fun _ => owns_advance ha (by rw [hs]; rfl), by simp [Created]⟩
  | formNotValid | sent | sendRaised => exact Or.inl ⟨rfl, fun _ _ => Iff.rfl, by simp [Created]⟩

theorem owns_createUser {i j : Nat} {a : Attempt C} {answer : CreateUserAnswer} {uid u : Uid}
    (ha : s.attempts[i]? = some a) (hs : a.stage = .createUser) (hu : answer.account = some uid) :
    (s.createUser i a answer uid).Owns j u ↔ s.Owns j u ∨ (j = i ∧ u = uid) := by
  constructor
  · rintro ⟨b, hb, hbu⟩
    rcases attempts_advance hb with ⟨rfl, rfl⟩ | ⟨-, hb⟩
    · exact Or.inr ⟨rfl, Option.some.inj (hbu.symm.trans hu)⟩
    · exact Or.inl ⟨b, hb, hbu⟩
  · rintro (⟨b, hb, hbu⟩ | ⟨rfl, rfl⟩)
    · have hij : i ≠ j := by
        rintro rfl
        cases ha.symm.trans hb
        rw [hs] at hbu
        cases hbu
      exact ⟨b, (List.getElem?_set_ne hij).trans hb, hbu⟩
    · exact ⟨_, List.getElem?_set_self (List.getElem?_eq_some_iff.1 ha).1, hu⟩

/-- **The accounts of a run** are those that its calls of `createUser` have created. -/
theorem run_owns {s₀ : Registrations C} (h₀ : s₀.attempts = []) (h : run (step jpegData) s₀ es = some s) (i : Nat)
    (uid : Uid) : Created es i uid ↔ s.Owns i uid := by
  refine run_hist (R := fun es s => ∀ i uid, Created es i uid ↔ s.Owns i uid) (fun i uid => ?_)
    (fun es e t t' hr ih hs i uid => ?_) h i uid
  · simp [Created, Owns, h₀]
  · have hsnoc : Created (es ++ [e]) i uid ↔ Created es i uid ∨ Created [e] i uid := by
      simp [Created, or_and_right, exists_or]
    rw [hsnoc, ih]
    rcases move_owns (move_of_step hs) with ⟨-, howns, hnot⟩ | ⟨j, a, answer, u, rfl, hu, ha, hst, -, rfl⟩
    · rw [howns]
      simp [hnot]
    · rw [owns_createUser ha hst hu]
      refine or_congr_right ?_
      simp only [Created, List.mem_singleton, RegisterEvent.createUserAnswered.injEq]
      constructor
      · rintro ⟨_, ⟨rfl, rfl⟩, hu'⟩
        exact ⟨rfl, Option.some.inj (hu'.symm.trans hu)⟩
      · rintro ⟨rfl, rfl⟩
        exact ⟨answer, ⟨rfl, rfl⟩, hu⟩

/-- All readers get `user` from a record, and none of them traps; the title shows its name and its picture. -/
def ReadAs (key : String) (value : Node) (user : User) : Prop :=
  HomeViewController.fetchedUser key value = .ok (some user) ∧
  (∃ title, HomeViewController.fetchUserAndSetupNavBarTitle key value = .ok (some title) ∧ title.user = user ∧
    title.nameLabel = user.username ∧ user.profileImageURL = some title.imageURL) ∧
  ∀ users, NewMessageTableViewController.fetchUser users key value = users ++ [user]

theorem readAs_userNode (key username email password url : String) :
    ReadAs key (userNode username email password url) ⟨key, email, password, username, some url⟩ :=
  ⟨fetchedUser_userNode .., ⟨_, fetchUserAndSetupNavBarTitle_userNode .., rfl, rfl, rfl⟩,
    fun _ => fetchUser_userNode ..⟩

theorem run_traced {s₀ : Registrations C} (h₀ : s₀.attempts = []) (h : run (step jpegData) s₀ es = some s) :
    Traced es s.attempts := by
  have hinit : Traced ([] : List (RegisterEvent C Image)) s₀.attempts := by
    rw [h₀]
    exact ⟨.nil, by simp, by simp⟩
  exact run_hist (R := fun es s => Traced es s.attempts) hinit
    (fun _ _ _ _ _ ht hs => move_traced ht (move_of_step hs)) h

/-- From an empty database on, every child of `users` is the record of an attempt. -/
theorem record_of_attempt {s₀ : Registrations C} (hdb : s₀.db = .empty) (h₀ : s₀.attempts = [])
    (h : run (step jpegData) s₀ es = some s) {key : String} (hk : s.userRecord key ≠ .empty) :
    ∃ (i : Nat) (a : Attempt C) (uid : Uid) (url : String), s.attempts[i]? = some a ∧ a.stage = .recorded uid url ∧
      uid.val = key ∧ s.userRecord key = userNode a.username a.email a.password url := by
  have hinit : Sourced s₀ := fun key hk => absurd (by rw [userRecord, hdb]; rfl) hk
  have hinv : RecordInv s ∧ Sourced s := by
    refine run_inv (I := fun s => RecordInv s ∧ Sourced s) (fun t e t' hi hs => ?_) h ⟨RecordInv.initial h₀, hinit⟩
    have hmove := move_of_step hs
    exact ⟨move_recordInv hi.1 hmove, move_sourced hi.1 hi.2 hmove⟩
  obtain ⟨i, a, uid, url, ha, hs, rfl⟩ := hinv.2 key hk
  refine ⟨i, a, uid, url, ha, hs, rfl, ?_⟩
  rw [hinv.1.stored ha (by rw [hs]; rfl), Attempt.record, hs]

/-- **The list of New Message** has one user for every child of `users` that it is told, under the key of the child. -/
theorem newMessage_users {s₀ : Registrations C} (hdb : s₀.db = .empty) (h₀ : s₀.attempts = [])
    (h : run (step jpegData) s₀ es = some s) (keys : List String) (hk : ∀ key ∈ keys, s.userRecord key ≠ .empty) :
    (keys.foldl (fun users key =>
      NewMessageTableViewController.fetchUser users key (s.userRecord key)) []).map User.id = keys := by
  have hfold : ∀ users : List User,
      (keys.foldl (fun users key => NewMessageTableViewController.fetchUser users key (s.userRecord key)) users).map
        User.id = users.map User.id ++ keys := by
    induction keys with
    | nil => simp
    | cons key keys ih =>
      intro users
      obtain ⟨i, a, uid, url, -, -, -, hrecord⟩ := record_of_attempt hdb h₀ h (hk key List.mem_cons_self)
      rw [List.foldl_cons, ih fun k hmem => hk k (List.mem_cons_of_mem _ hmem), hrecord, fetchUser_userNode]
      simp
  simpa using hfold []

/-- **The records of the users.** From an empty database on, every child of `users` holds the four strings of one press
of the register button, under the uid that its `createUser` returned, and every reader gets this user back. -/
theorem user_records_readable {s₀ : Registrations C} (hdb : s₀.db = .empty) (h₀ : s₀.attempts = [])
    (h : run (step jpegData) s₀ es = some s) {key : String} (hk : s.userRecord key ≠ .empty) :
    ∃ (i : Nat) (client : C) (username email password confirmPassword url : String) (uid : Uid),
      (presses es)[i]? = some (.registerButtonPressed client (some username) (some email) (some password)
        (some confirmPassword)) ∧
      .createUserAnswered i (.authResult uid) ∈ es ∧ .downloadURLAnswered i (some url) ∈ es ∧ key = uid.val ∧
      s.userRecord key = userNode username email password url ∧
      ReadAs key (s.userRecord key) ⟨key, email, password, username, some url⟩ := by
  have htraced := run_traced h₀ h
  obtain ⟨i, a, uid, url, ha, hs, rfl, hrecord⟩ := record_of_attempt hdb h₀ h hk
  have hreturned : .createUserAnswered i (.authResult uid) ∈ es := htraced.returned ha (by rw [hs]; rfl)
  have hdownloaded : .downloadURLAnswered i (some url) ∈ es := htraced.downloaded ha (by rw [hs]; rfl)
  obtain ⟨_, hpress, confirmPassword, rfl⟩ := htraced.press ha
  refine ⟨i, a.client, a.username, a.email, a.password, confirmPassword, url, uid, hpress, hreturned, hdownloaded, rfl,
    hrecord, ?_⟩
  rw [hrecord]
  exact readAs_userNode ..

/-- Nobody is registered yet. -/
def unused (C : Type) : Registrations C := ⟨[], fun _ => none, .empty, []⟩

/-- One registration that succeeds, as far as the URL of its picture. -/
def registering (uid : Uid) : List (RegisterEvent Unit Unit) :=
  [.registerButtonPressed () (some "me") (some "me@mail.org") (some "secret") (some "secret"),
    .createUserAnswered 0 (.authResult uid), .createUserCallback 0 (some ()), .putDataAnswered 0 true,
    .downloadURLAnswered 0 (some "https://pictures/me.jpg")]

/-- The record of one registration is read back. -/
theorem user_record_readable_me : ∃ s, run (step (fun u : Unit => some u)) (unused Unit)
      (registering ⟨"u1", by decide⟩ ++ [.updateChildValuesAnswered 0 true]) = some s ∧
    s.userRecord "u1" ≠ .empty ∧ ∃ user, ReadAs "u1" (s.userRecord "u1") user := by
  have hrun : ∃ s, run (step (fun u : Unit => some u)) (unused Unit)
      (registering ⟨"u1", by decide⟩ ++ [.updateChildValuesAnswered 0 true]) = some s ∧
      (s.userRecord "u1").isEmpty = false := ⟨_, rfl, by decide⟩
  obtain ⟨s, hs, hne⟩ := hrun
  have hk : s.userRecord "u1" ≠ .empty := fun h => by rw [h] at hne; cases hne
  obtain ⟨_, _, username, email, password, _, url, _, -, -, -, -, -, hread⟩ := user_records_readable rfl rfl hs hk
  exact ⟨s, hs, hk, _, hread⟩

end Registrations

end ChatApp
