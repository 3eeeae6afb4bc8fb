import ChatApp.Register.Users
import ChatApp.Table.Cells

/-!
# The messages in the database

Messages and registrations share one database. A message is written once, as a whole, under a new key.

- `move_chatRecord`: no step touches a message that is there; a new one is the record of a send;
- `messages_kept`: what is stored stays as it is;
- `messages_sent`, `messages_persist`: from an empty database on, every child of `chats` is the record of one send, is
  decoded to it, and stays so;
- `home_safe`: when the receivers of the sends are ids of users, no row of Home raises.
-/

namespace ChatApp.Registrations

open Lib Lib.Runs RegisterViewController

variable {C Image Data : Type} [DecidableEq C] {jpegData : Image → Option Data} {s s' : Registrations C}
  {e : RegisterEvent C Image} {es : List (RegisterEvent C Image)}

/-- The record under `chats/<key>`. -/
def chatRecord (s : Registrations C) (key : String) : Node := s.db.get [Constant.chats, key]

omit [DecidableEq C] in
/-- The update of a user's record is not seen by a message. -/
theorem chatRecord_addUser (i : Nat) (a : Attempt C) (uid : Uid) (url key : String) :
    (s.addUser i a uid url ⟨[Constant.users, uid.val]⟩).chatRecord key = s.chatRecord key := by
  apply Ref.get_updateChildValues_of_not_prefix
  · simp [Constant.chats, Constant.users]
  · simp [Constant.chats, Constant.users]

/-- A step leaves a message as it is, or it is the send that stores it under a key that had no value. -/
theorem move_chatRecord (hi : RecordInv s) (h : Move jpegData s e s') (key : String) :
    s'.chatRecord key = s.chatRecord key ∨
    (s.chatRecord key = .empty ∧ ∃ c text user timestamp, e = .handleSendMessage c key text (some user) timestamp ∧
      s'.chatRecord key = ChatLogViewController.chatNode text (s.currentUser c) user.id timestamp) := by
  cases h with
  | @sent c key' text timestamp user values hk hv =>
    have hempty := Tree.eq_empty_of_isEmpty hk
    obtain ⟨u, rfl, rfl⟩ := ChatLogViewController.handleSendMessage_ok hv
    by_cases hkey : key = key'
    · subst hkey
      refine Or.inr ⟨hempty, c, text, u, timestamp, rfl, ?_⟩
      exact ChatLogViewController.get_updateChildValues_chatNode (r := ⟨_⟩) hempty ..
    · left
      apply Ref.get_updateChildValues_of_not_prefix
      · simpa using Ne.symm hkey
      · simpa using hkey
  | updateAccepted ha hs =>
    obtain rfl := hi.target ha hs
    exact Or.inl (chatRecord_addUser ..)
  | _ => exact Or.inl rfl

/-- **A stored message** is never changed or removed. -/
theorem messages_kept (hi : RecordInv s) (h : run (step jpegData) s es = some s') {key : String}
    (hk : s.chatRecord key ≠ .empty) : s'.chatRecord key = s.chatRecord key := by
  have hkept : RecordInv s' ∧ s'.chatRecord key = s.chatRecord key := by
    refine run_inv (I := fun t => RecordInv t ∧ t.chatRecord key = s.chatRecord key) (fun t e t' ht hstep => ?_) h
      ⟨hi, rfl⟩
    have hmove := move_of_step hstep
    refine ⟨move_recordInv ht.1 hmove, ?_⟩
    rcases move_chatRecord ht.1 hmove key with hsame | ⟨hempty, -⟩
    · rw [hsame, ht.2]
    · rw [ht.2] at hempty
      exact absurd hempty hk
  exact hkept.2

/-- From an empty database on, a child of `chats` is the record of one send of the run, from the user that was signed in
on the client before this send. -/
theorem message_origin {s₀ : Registrations C} (hdb : s₀.db = .empty) (h₀ : s₀.attempts = [])
    (h : run (step jpegData) s₀ es = some s) {key : String} (hk : s.chatRecord key ≠ .empty) :
    ∃ (pre post : List (RegisterEvent C Image)) (t : Registrations C) (c : C) (text : String) (user : User)
      (timestamp : String), es = pre ++ .handleSendMessage c key text (some user) timestamp :: post ∧
      run (step jpegData) s₀ pre = some t ∧
      s.chatRecord key = ChatLogViewController.chatNode text (t.currentUser c) user.id timestamp := by
  refine run_hist (R := fun es s => s.chatRecord key ≠ .empty →
    ∃ (pre post : List (RegisterEvent C Image)) (t : Registrations C) (c : C) (text : String) (user : User)
      (timestamp : String), es = pre ++ .handleSendMessage c key text (some user) timestamp :: post ∧
      run (step jpegData) s₀ pre = some t ∧
      s.chatRecord key = ChatLogViewController.chatNode text (t.currentUser c) user.id timestamp)
    (fun hk => ?_) (fun es e t t' hr ih hstep hk => ?_) h hk
  · exact absurd (by rw [chatRecord, hdb]; rfl) hk
  · rcases move_chatRecord (run_recordInv h₀ hr) (move_of_step hstep) key with hsame | ⟨-, c, text, user, ts, rfl, hnew⟩
    · rw [hsame] at hk ⊢
      obtain ⟨pre, post, u, c, text, user, ts, rfl, hpre, hrecord⟩ := ih hk
      exact ⟨pre, post ++ [e], u, c, text, user, ts, by simp, hpre, hrecord⟩
    · exact ⟨es, [], t, c, text, user, ts, rfl, hr, hnew⟩

/-- **Every message was sent.** From an empty database on, a child of `chats` is the record of one send of the run and
is decoded to it. -/
theorem messages_sent {s₀ : Registrations C} (hdb : s₀.db = .empty) (h₀ : s₀.attempts = [])
    (h : run (step jpegData) s₀ es = some s) {key : String} (hk : s.chatRecord key ≠ .empty) :
    ∃ (c : C) (text : String) (user : User) (timestamp : String) (sender : Option Uid),
      .handleSendMessage c key text (some user) timestamp ∈ es ∧
      HomeViewController.chat? (s.chatRecord key) =
        some ⟨text, (sender.map Uid.val).getD "", user.id, timestamp⟩ := by
  obtain ⟨pre, post, t, c, text, user, timestamp, rfl, -, hrecord⟩ := message_origin hdb h₀ h hk
  refine ⟨c, text, user, timestamp, t.currentUser c, by simp, ?_⟩
  rw [hrecord]
  exact HomeViewController.chat_chatNode ..

/-- **No message is lost, changed or made up.** Whatever is registered and sent later, a message keeps the record of its
send, from the user that was signed in on that client then, and Home decodes it to this. -/
theorem messages_persist {s₀ : Registrations C} (hdb : s₀.db = .empty) (h₀ : s₀.attempts = [])
    {later : List (RegisterEvent C Image)} (h : run (step jpegData) s₀ es = some s)
    (h' : run (step jpegData) s later = some s') {key : String} (hk : s.chatRecord key ≠ .empty) :
    s'.chatRecord key = s.chatRecord key ∧
    ∃ (pre post : List (RegisterEvent C Image)) (t : Registrations C) (c : C) (text : String) (user : User)
      (timestamp : String), es = pre ++ .handleSendMessage c key text (some user) timestamp :: post ∧
      run (step jpegData) s₀ pre = some t ∧
      HomeViewController.chat? (s'.chatRecord key) =
        some ⟨text, ((t.currentUser c).map Uid.val).getD "", user.id, timestamp⟩ := by
  have hkept := messages_kept (run_recordInv h₀ h) h' hk
  obtain ⟨pre, post, t, c, text, user, timestamp, hes, hpre, hrecord⟩ := message_origin hdb h₀ h hk
  refine ⟨hkept, pre, post, t, c, text, user, timestamp, hes, hpre, ?_⟩
  rw [hkept, hrecord]
  exact HomeViewController.chat_chatNode ..

/-- A message to a registered user. -/
def greeting (uid : Uid) : List (RegisterEvent Unit Unit) :=
  registering uid ++ [.updateChildValuesAnswered 0 true,
    .handleSendMessage () "k1" "hi" (some ⟨uid.val, "me@mail.org", "secret", "me", none⟩) "1571000000.5"]

theorem messages_persist_greeting : ∃ s s', run (step fun u : Unit => some u) (unused Unit)
      (greeting ⟨"u1", by decide⟩) = some s ∧
    run (step fun u : Unit => some u) s [.handleSendMessage () "k2" "again" none "1571000001.5"] = some s' ∧
    s.chatRecord "k1" ≠ .empty ∧ s'.chatRecord "k1" = s.chatRecord "k1" := by
  have hrun : ∃ s s', run (step fun u : Unit => some u) (unused Unit)
      (greeting ⟨"u1", by decide⟩) = some s ∧
      run (step fun u : Unit => some u) s [.handleSendMessage () "k2" "again" none "1571000001.5"] = some s' ∧
      (s.chatRecord "k1").isEmpty = false := ⟨_, _, rfl, rfl, by decide⟩
  obtain ⟨s, s', hs, hs', hne⟩ := hrun
  have hk : s.chatRecord "k1" ≠ .empty := fun h => by rw [h] at hne; cases hne
  exact ⟨s, s', hs, hs', hk, (messages_persist rfl rfl hs hs' hk).1⟩

/-- The list of Home, for the children of `chats` with these keys. -/
def homeChats (s : Registrations C) (keys : List String) : List Chat :=
  (keys.map s.chatRecord).foldl HomeViewController.observeMessages []

/-- **The app does not crash its own Home.** When every message was sent to a user whose id is a path string, no row of
the list raises. -/
theorem home_safe {s₀ : Registrations C} (hdb : s₀.db = .empty) (h₀ : s₀.attempts = [])
    (h : run (step jpegData) s₀ es = some s)
    (hu : ∀ c key text user timestamp, .handleSendMessage c key text (some user) timestamp ∈ es →
      FValidation.isValidPathString user.id = true)
    (keys : List String) {row : Nat} (hrow : row < (s.homeChats keys).length) :
    ∃ chat ref, HomeViewController.cellForRowAt (s.homeChats keys) row = .ok (chat, ref) := by
  have hlist : s.homeChats keys = (keys.map s.chatRecord).filterMap HomeViewController.chat? :=
    HomeViewController.foldl_observeMessages _ _
  obtain ⟨chat, hchat⟩ : ∃ chat, (s.homeChats keys)[row]? = some chat := ⟨_, List.getElem?_eq_getElem hrow⟩
  have hmem := List.mem_of_getElem? hchat
  rw [hlist, List.mem_filterMap] at hmem
  obtain ⟨value, hvalue, hdec⟩ := hmem
  obtain ⟨key, -, rfl⟩ := List.mem_map.1 hvalue
  have hne : s.chatRecord key ≠ .empty := by
    intro hempty
    rw [hempty] at hdec
    cases hdec
  obtain ⟨c, text, user, timestamp, sender, hsent, hchat'⟩ := messages_sent hdb h₀ h hne
  cases hdec.symm.trans hchat'
  exact ⟨_, _, HomeViewController.cellForRowAt_eq_ok.2 ⟨hchat, hu c key text user timestamp hsent, rfl⟩⟩

theorem home_safe_greeting : ∃ s, run (step fun u : Unit => some u) (unused Unit)
      (greeting ⟨"u1", by decide⟩) = some s ∧
    (s.homeChats ["k1"]).length = 1 ∧
    ∃ chat ref, HomeViewController.cellForRowAt (s.homeChats ["k1"]) 0 = .ok (chat, ref) := by
  have hrun : ∃ s, run (step fun u : Unit => some u) (unused Unit)
      (greeting ⟨"u1", by decide⟩) = some s ∧
      (s.homeChats ["k1"]).length = 1 := ⟨_, rfl, by decide⟩
  obtain ⟨s, hs, hlen⟩ := hrun
  refine ⟨s, hs, hlen, home_safe rfl rfl hs (fun c key text user timestamp hmem => ?_) ["k1"] (by omega)⟩
  simp only [greeting, registering, List.cons_append, List.nil_append, List.mem_cons, reduceCtorEq, false_or,
    List.not_mem_nil, or_false, RegisterEvent.handleSendMessage.injEq, Option.some.injEq] at hmem
  rw [hmem.2.2.2.1]
  decide

end ChatApp.Registrations
