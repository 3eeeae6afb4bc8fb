import ChatApp.Session.Device

/-!
# Who a message is attributed to

`handleSendMessage` puts `Auth.auth().currentUser?.uid` into the record as it is, and the chat screen does not notice
that the user is gone.

- `attributed_of_message`: the record of a send decodes to what was sent, with the sender iff somebody is signed in;
- `sent_attributed_iff`: over every run, all stored messages are attributed iff nobody sends while signed out;
- `DoorInv`: without a sign-out that Firebase forces, a device without a user shows a login screen that no completion
  can dismiss, so that the sends of such a run are signed in (`sends_signedIn`).
-/

namespace ChatApp.Session

open Lib Lib.Runs

/-- Every client decodes the record to the message that was sent, from the account that was signed in. -/
def Attributed (m : Sent) : Prop :=
  ∃ uid, m.signedIn = some uid ∧ uid.val ≠ "" ∧
    HomeViewController.chat? m.node = some ⟨m.text, uid.val, m.receiver, m.timestamp⟩

/-- Whoever presses Send or Return with strings that can be stored is signed in. -/
def SendsSignedIn (s : Session) (e : SessionEvent) : Prop :=
  ∀ text timestamp user, e.message? = some (text, timestamp) → s.chat = some (some user) →
    FValidation.fits text = true → FValidation.fits user.id = true → FValidation.fits timestamp = true →
    s.currentUser ≠ none

variable {count : String → Nat} {db : Node} {s s' : Session}

/-! ## One send -/

/-- What a send stores. -/
theorem message_ok {user : Option User} {text timestamp : String} {m : Sent}
    (h : s.message user text timestamp = .ok m) :
    ∃ u, user = some u ∧ m = ⟨text, u.id, timestamp, s.currentUser,
      ChatLogViewController.chatNode text s.currentUser u.id timestamp⟩ := by
  unfold message at h
  cases hs : ChatLogViewController.handleSendMessage text s.currentUser user timestamp with
  | error f => rw [hs] at h; cases h
  | ok vs =>
    obtain ⟨u, rfl, rfl⟩ := ChatLogViewController.handleSendMessage_ok hs
    rw [hs] at h
    cases h
    exact ⟨u, rfl, by rw [← ChatLogViewController.recordNode_values]; rfl⟩

/-- The record of a send keeps its sender iff there is one. -/
theorem attributed_of_message {user : Option User} {text timestamp : String} {m : Sent}
    (h : s.message user text timestamp = .ok m) : Attributed m ↔ s.currentUser ≠ none := by
  obtain ⟨u, -, rfl⟩ := message_ok h
  constructor
  · rintro ⟨uid, huid, -⟩ hnone
    rw [hnone] at huid
    cases huid
  · intro hsome
    obtain ⟨uid, huid⟩ := Option.ne_none_iff_exists'.1 hsome
    refine ⟨uid, huid, uid.val_ne_empty, ?_⟩
    rw [HomeViewController.chat_chatNode, huid]
    rfl

/-- Without a user, a send stores its record iff the text, the receiver and the time can be stored. -/
theorem message_ok_iff_fits {user : User} {text timestamp : String} (hn : s.currentUser = none) :
    (∃ m, s.message (some user) text timestamp = .ok m) ↔ FValidation.fits text = true ∧
      FValidation.fits user.id = true ∧ FValidation.fits timestamp = true := by
  have hvalid : Ref.validUpdate "updateChildValues:" (ChatLogViewController.values text none user.id timestamp) =
      .ok () ↔ FValidation.fits text = true ∧ FValidation.fits user.id = true ∧
        FValidation.fits timestamp = true := by
    rw [Ref.validUpdate_eq_ok]
    · simp [ChatLogViewController.values]
    · simp only [ChatLogViewController.values, List.forall_mem_cons, List.not_mem_nil, false_implies, implies_true,
        and_true]
      decide
  rw [← hvalid]
  simp only [message, ChatLogViewController.handleSendMessage, hn, bind, Except.bind, pure, Except.pure]
  cases Ref.validUpdate "updateChildValues:" (ChatLogViewController.values text none user.id timestamp) <;> simp

/-! ## Runs -/

@[simp] theorem launch_sent (onScreen : Bool) : (s.launch onScreen).sent = s.sent := by
  unfold launch checkIfUserIsLoggedIn
  cases onScreen <;> cases s.currentUser <;> rfl

@[simp] theorem authenticated_sent (login : Nat) (result : Option Uid) :
    (s.authenticated login result).sent = s.sent := by
  cases result with
  | none => rfl
  | some u =>
    obtain ⟨fetches, uncoveredFor, h⟩ := authenticated_some (s := s) login u
    rw [h]

@[simp] theorem fetchAnswered_sent (uid : Uid) : (s.fetchAnswered db uid).sent = s.sent := by
  unfold fetchAnswered
  split <;> rfl

@[simp] theorem logoutButtonPressed_sent (signOutSucceeds : Bool) :
    (s.logoutButtonPressed signOutSucceeds).sent = s.sent := by
  cases signOutSucceeds <;> rfl

/-- Only a send changes the stored messages. -/
theorem move_sent {e : SessionEvent} (h : Move db s e s') : (e.message? = none ∧ s'.sent = s.sent) ∨
    ∃ text timestamp user, e.message? = some (text, timestamp) ∧ s.chat = some user ∧
      s' = s.handleSendMessage user text timestamp := by
  cases h with
  | send hr he hs hc => exact Or.inr ⟨_, _, _, he, hc, rfl⟩
  | launch | signInCallback | logout | fetchAnswered => exact Or.inl ⟨rfl, by simp⟩
  | _ => exact Or.inl ⟨rfl, rfl⟩

/-- A send of the chat screen is signed in, or its record stays out. -/
theorem send_attributed_iff {e : SessionEvent} {text timestamp : String} {user : Option User}
    (he : e.message? = some (text, timestamp)) (hc : s.chat = some user) :
    (∀ m ∈ (s.handleSendMessage user text timestamp).sent, Attributed m) ↔
      (∀ m ∈ s.sent, Attributed m) ∧ SendsSignedIn s e := by
  unfold handleSendMessage
  cases hm : s.message user text timestamp with
  | ok m =>
    obtain ⟨u, rfl, -⟩ := message_ok hm
    simp only [List.forall_mem_append, List.forall_mem_singleton, attributed_of_message hm]
    refine and_congr_right fun _ => ⟨fun hsome _ _ _ _ _ _ _ _ => hsome, fun hsend hnone => ?_⟩
    obtain ⟨ht, hu, hts⟩ := (message_ok_iff_fits hnone).1 ⟨m, hm⟩
    exact hsend text timestamp u he hc ht hu hts hnone
  | error f =>
    refine (and_iff_left ?_).symm
    intro text' timestamp' user' he' hc' ht hu hts hnone
    cases he.symm.trans he'
    cases hc.symm.trans hc'
    obtain ⟨m, hok⟩ := (message_ok_iff_fits hnone).2 ⟨ht, hu, hts⟩
    rw [hm] at hok
    cases hok

/-- One step: the messages stay attributed iff a send is signed in. -/
theorem step_attributed_iff {e : SessionEvent} (h : s.step count db e = some s') :
    (∀ m ∈ s'.sent, Attributed m) ↔ (∀ m ∈ s.sent, Attributed m) ∧ SendsSignedIn s e := by
  rcases move_sent (move_of_step h) with ⟨he, hs⟩ | ⟨text, timestamp, user, he, hc, rfl⟩
  · rw [hs]
    refine (and_iff_left ?_).symm
    intro text timestamp user he'
    cases he.symm.trans he'
  · exact send_attributed_iff he hc

/-! ## Sessions without a forced sign-out -/

/-- The login screens that are up, or have a sign-in or a completion handler outstanding. -/
def logins (s : Session) (id : Nat) : Prop :=
  .login id ∈ s.stack ∨ id ∈ s.signIns.map (·.2) ∨ id ∈ s.callbacks.map (·.2.1)

/-- The login screen `id` covers Home, and no completion handler is going to dismiss it. -/
def Door (s : Session) (id : Nat) : Prop :=
  s.stack.head? = some (.login id) ∧ ∀ c ∈ s.callbacks, c.2.1 = id → c.2.2 = none

structure DoorInv (s : Session) : Prop where
  fresh : ∀ id, s.logins id → id < s.next
  door : s.running = true → s.currentUser = none → ∃ id, s.Door id

/-- Nothing but the user signs out, and a launch can present the login screen. -/
def Undisturbed (e : SessionEvent) : Prop := e ≠ .forcedSignOut ∧ e ≠ .launch false

instance (e : SessionEvent) : Decidable (Undisturbed e) := inferInstanceAs (Decidable (_ ∧ _))

/-- A move after which there are no new login screens, and the door is still shut if nobody is signed in. -/
theorem DoorInv.frame (hi : DoorInv s) (hl : ∀ id, s'.logins id → s.logins id ∨ id < s'.next) (hn : s.next ≤ s'.next)
    (hr : s'.running = true → s.running = true) (hu : s'.currentUser = none → s.currentUser = none)
    (hd : ∀ id, s'.currentUser = none → s.Door id → s'.Door id) : DoorInv s' := by
  refine ⟨fun id hid => ?_, fun hrun hnone => ?_⟩
  · rcases hl id hid with h | h
    · exact (hi.fresh id h).trans_le hn
    · exact h
  · obtain ⟨id, hdoor⟩ := hi.door (hr hrun) (hu hnone)
    exact ⟨id, hd id hnone hdoor⟩

/-- The screens and the sign-ins stay as they are. -/
theorem DoorInv.same (hi : DoorInv s) (hs : s'.stack = s.stack) (hin : s'.signIns = s.signIns)
    (hc : s'.callbacks = s.callbacks) (hn : s'.next = s.next) (hr : s'.running = true → s.running = true)
    (hu : s'.currentUser = s.currentUser) : DoorInv s' := by
  refine hi.frame (fun id hid => Or.inl ?_) hn.ge hr (fun h => hu ▸ h) (fun id _ hd => ?_)
  · simpa only [logins, hs, hin, hc] using hid
  · simpa only [Door, hs, hc] using hd

/-- The login screen over an uncovered Home is a door: nothing knows its number yet. -/
theorem doorInv_presentLoginView (hf : ∀ id, s.logins id → id < s.next) (hs : s.stack = []) :
    DoorInv s.presentLoginView := by
  have hstack : s.presentLoginView.stack = [.login s.next] := by
    simp [Session.presentLoginView, HomeViewController.presentLoginView, Modal.present, hs]
  refine ⟨fun id hid => ?_, fun _ _ => ⟨s.next, by rw [hstack]; rfl, fun c hc he => ?_⟩⟩
  · rcases hid with h | h
    · rw [hstack, List.mem_singleton] at h
      cases h
      exact Nat.lt_succ_self _
    · exact Nat.lt_succ_of_lt (hf id (Or.inr h))
  · have := hf c.2.1 (Or.inr (Or.inr (List.mem_map_of_mem hc)))
    omega

theorem doorInv_launch : DoorInv (s.launch true) := by
  unfold launch checkIfUserIsLoggedIn
  cases hu : s.currentUser with
  | none => exact doorInv_presentLoginView (fun id hid => by simp [logins] at hid) rfl
  | some u =>
    simp only [fetchUserAndSetupNavBarTitle]
    exact ⟨fun id hid => by simp [logins] at hid, fun _ hn => (nomatch hn)⟩

/-- A handler leaves the door shut while nobody is signed in: it is not the handler of a successful sign-in of the
screen at the door. -/
theorem DoorInv.signInCallback (hi : DoorInv s) {request id : Nat} {result : Option Uid}
    (hl : s.callbacks.lookup request = some (id, result)) :
    DoorInv (authenticated { s with callbacks := s.callbacks.filter fun c => c.1 ≠ request } id result) := by
  have hmem : (request, id, result) ∈ s.callbacks := by
    obtain ⟨_, _, heq, -⟩ := List.lookup_eq_some_iff.1 hl
    simp [heq]
  have hsub : s.callbacks.filter (fun c => c.1 ≠ request) ⊆ s.callbacks := List.filter_subset_self _
  cases result with
  | none =>
    refine hi.frame (fun i h => Or.inl ?_) (Nat.le_succ _) (fun h => h) (fun h => h) (fun i _ hd => ⟨?_, ?_⟩)
    · refine h.imp (fun h => ?_) (Or.imp_right fun h => List.map_subset _ hsub h)
      rcases Modal.mem_present h with h | h
      · exact h
      · cases h
    · exact Modal.head?_present hd.1
    · exact fun c hc => hd.2 c (hsub hc)
  | some u =>
    obtain ⟨fetches, uncoveredFor, heq⟩ := authenticated_some
      (s := { s with callbacks := s.callbacks.filter fun c => c.1 ≠ request }) id u
    rw [heq]
    refine hi.frame (fun i h => Or.inl ?_) le_rfl (fun h => h) (fun h => h) (fun i _ hd => ⟨?_, ?_⟩)
    · exact h.imp (fun h => Modal.mem_of_mem_dismiss h) (Or.imp_right fun h => List.map_subset _ hsub h)
    · refine Modal.head?_dismiss hd.1 fun he => ?_
      cases he
      cases hd.2 _ hmem rfl
    · exact fun c hc => hd.2 c (hsub hc)

theorem DoorInv.loginButton (hi : DoorInv s) {id : Nat} (ht : s.stack.getLast? = some (.login id)) :
    DoorInv { s with signIns := s.signIns ++ [(s.next, id)], next := s.next + 1 } := by
  refine hi.frame (fun i h => Or.inl ?_) (Nat.le_succ _) (fun h => h) (fun h => h) (fun i _ hd => hd)
  rcases h with h | h | h
  · exact Or.inl h
  · simp only [List.map_append, List.map_cons, List.map_nil, List.mem_append, List.mem_singleton] at h
    rcases h with h | rfl
    · exact Or.inr (Or.inl h)
    · exact Or.inl (List.mem_of_getLast? ht)
  · exact Or.inr (Or.inr h)

/-- A successful answer signs somebody in; a failed one adds a handler that dismisses nothing. -/
theorem DoorInv.signInAnswered (hi : DoorInv s) {request id : Nat} {result : Option Uid}
    (hl : s.signIns.lookup request = some id) : DoorInv
      { s with
        currentUser := if result.isSome then result else s.currentUser
        signIns := Screens.settle request s.signIns
        callbacks := s.callbacks ++ [(request, id, result)] } := by
  have hmem : id ∈ s.signIns.map (·.2) := by
    obtain ⟨_, _, heq, -⟩ := List.lookup_eq_some_iff.1 hl
    simp [heq]
  have hsub : Screens.settle request s.signIns ⊆ s.signIns := List.filter_subset_self _
  refine hi.frame (fun i h => Or.inl ?_) le_rfl (fun h => h) (fun h => ?_) (fun i h hd => ⟨hd.1, fun c hc he => ?_⟩)
  · rcases h with h | h | h
    · exact Or.inl h
    · exact Or.inr (Or.inl (List.map_subset _ hsub h))
    · simp only [List.map_append, List.map_cons, List.map_nil, List.mem_append, List.mem_singleton] at h
      rcases h with h | rfl
      · exact Or.inr (Or.inr h)
      · exact Or.inr (Or.inl hmem)
  · cases result with
    | none => exact h
    | some u => cases h
  · rcases List.mem_append.1 hc with hc | hc
    · exact hd.2 c hc he
    · rw [List.mem_singleton.1 hc]
      cases result with
      | none => rfl
      | some u => cases h

theorem move_doorInv {e : SessionEvent} (hi : DoorInv s) (he : Undisturbed e) (h : Move db s e s') : DoorInv s' := by
  cases h with
  | launch onScreen =>
    cases onScreen with
    | false => exact absurd rfl he.2
    | true => exact doorInv_launch
  | loginButton hr ht => exact hi.loginButton ht
  | loginRefused => exact hi
  | signInAnswered hr hl => exact hi.signInAnswered hl
  | signInCallback hr hl => exact hi.signInCallback hl
  | okayAction hr ht =>
    refine hi.frame (fun i h => Or.inl (h.imp_left Modal.mem_of_mem_dismiss)) le_rfl (fun h => h) (fun h => h)
      (fun i _ hd => ⟨?_, hd.2⟩)
    exact Modal.head?_dismiss hd.1 (by simp)
  | logout signOutSucceeds hr hh =>
    cases signOutSucceeds <;> exact doorInv_presentLoginView hi.fresh hh.1
  | fetchAnswered hr hm =>
    unfold Session.fetchAnswered
    split
    · exact hi.same rfl rfl rfl rfl id rfl
    · exact hi.same rfl rfl rfl rfl id rfl
    · exact hi.same rfl rfl rfl rfl (fun _ => hr) rfl
  | forcedSignOut => exact absurd rfl he.1
  | chatLogButton => exact hi.same rfl rfl rfl rfl id rfl
  | backButton => exact hi.same rfl rfl rfl rfl id rfl
  | send hr =>
    unfold handleSendMessage
    split
    · exact hi.same rfl rfl rfl rfl id rfl
    · exact hi.same rfl rfl rfl rfl (fun _ => hr) rfl

/-- Home and the chat screen are covered while nobody is signed in. -/
theorem move_sendsSignedIn {e : SessionEvent} (hi : DoorInv s) (h : Move db s e s') : SendsSignedIn s e := by
  intro text timestamp user he _ _ _ _ hnone
  cases h with
  | send hr _ hs _ =>
    obtain ⟨id, hd, -⟩ := hi.door hr hnone
    rw [hs] at hd
    cases hd
  | _ => cases he

/-- Without a forced sign-out, every send is signed in. -/
theorem sends_signedIn {user : Option Uid} {es : List SessionEvent}
    (h : run (step count db) (initial user) es = some s) (hu : ∀ e ∈ es, Undisturbed e) :
    Along (step count db) SendsSignedIn (initial user) es := by
  have hinit : DoorInv (initial user) := ⟨fun id hid => by simp [logins, initial] at hid, fun hr => (nomatch hr)⟩
  refine along_of_inv (fun s e s' hi hq hs => ?_) h hu hinit
  exact ⟨move_doorInv hi hq (move_of_step hs), move_sendsSignedIn hi (move_of_step hs)⟩

/-- **Attribution.** All messages that a device stores are attributed to the account signed in on it iff nobody sends
while signed out. -/
theorem sent_attributed_iff {user : Option Uid} {es : List SessionEvent}
    (h : run (step count db) (initial user) es = some s) :
    (∀ m ∈ s.sent, Attributed m) ↔ Along (step count db) SendsSignedIn (initial user) es := by
  rw [run_iff_along (I := fun s => ∀ m ∈ s.sent, Attributed m) (P := SendsSignedIn)
    (fun _ _ _ hs => step_attributed_iff hs) h]
  simp [initial]

/-- A message sent while signed in. -/
theorem sent_attributed_signedIn : ∃ s, run (step String.length .empty) (initial (some ⟨"u1", by decide⟩))
      [.launch true, .chatLogButtonPressed, .sendButtonPressed "hi" "1571000000.5"] = some s ∧
    s.sent.length = 1 ∧ ∀ m ∈ s.sent, Attributed m := by
  have hrun : ∃ s, run (step String.length .empty) (initial (some ⟨"u1", by decide⟩))
      [.launch true, .chatLogButtonPressed, .sendButtonPressed "hi" "1571000000.5"] = some s ∧ s.sent.length = 1 :=
    ⟨_, rfl, by decide⟩
  obtain ⟨s, hs, hone⟩ := hrun
  exact ⟨s, hs, hone, (sent_attributed_iff hs).2 (sends_signedIn hs (by decide))⟩

/-- Firebase signs the user out while the chat screen is open, and the next message has no sender. -/
theorem sent_after_forced_signOut : ∃ s, run (step String.length .empty) (initial (some ⟨"u1", by decide⟩))
      [.launch true, .chatLogButtonPressed, .forcedSignOut, .sendButtonPressed "hi" "1571000000.5"] = some s ∧
    ∃ m ∈ s.sent, HomeViewController.chat? m.node = some ⟨"hi", "", m.receiver, "1571000000.5"⟩ ∧ ¬Attributed m := by
  have hrun : ∃ s, run (step String.length .empty) (initial (some ⟨"u1", by decide⟩))
      [.launch true, .chatLogButtonPressed, .forcedSignOut, .sendButtonPressed "hi" "1571000000.5"] = some s ∧
      s.sent = [⟨"hi", hardCodedUser.id, "1571000000.5", none,
        ChatLogViewController.chatNode "hi" none hardCodedUser.id "1571000000.5"⟩] :=
    ⟨_, rfl, rfl⟩
  obtain ⟨s, hs, hsent⟩ := hrun
  refine ⟨s, hs, _, by rw [hsent]; exact List.mem_cons_self, HomeViewController.chat_chatNode .., ?_⟩
  rintro ⟨uid, h, -⟩
  cases h

end ChatApp.Session
