import ChatApp.Records
import ChatApp.Screens

/-!
# One device: launches, sign-ins and sign-outs, the title of Home and the chat screen

A run of the app on one device, across relaunches. Firebase Auth keeps the current user; everything else is lost with
the process. A sign-in is answered first, which sets the current user, and its completion handler runs later on the
main queue. The database of users is fixed during a run.

- `Session.step`: one event; `Session.Move` lists what each event can do, with its guards (`move_of_step`);
- `launch onScreen`: `viewDidLoad` of Home, where `onScreen` says whether UIKit already accepts a presentation;
- the user acts on the screen that is visible: the topmost modal one, else the chat screen, else Home.
-/

namespace ChatApp

open Lib Lib.Runs

/-- A message as it was stored, with what it was sent from. -/
structure Sent where
  text : String
  receiver : String
  timestamp : String
  /-- The account signed in when the message was sent. -/
  signedIn : Option Uid
  /-- The value under its new key in `chats`. -/
  node : Node

structure Session where
  running : Bool
  currentUser : Option Uid
  /-- The screens over Home. -/
  stack : List Screen
  next : Nat
  /-- Whether `homeViewController` of a login screen is set. -/
  homeViewController : Nat → Bool
  /-- The chat screen on the navigation stack, with its user. -/
  chat : Option (Option User)
  /-- `navigationItem.titleView` of Home. -/
  title : Option TitleView
  /-- Unanswered sign-ins, with their login screens. -/
  signIns : List (Nat × Nat)
  /-- Answered sign-ins whose completion handlers have not run, with their login screens and results. -/
  callbacks : List (Nat × Nat × Option Uid)
  /-- Unanswered profile fetches. -/
  fetches : List Uid
  sent : List Sent
  /-- Bookkeeping: the user at the last launch. -/
  launchUser : Option Uid
  /-- Bookkeeping: the user for whom Home was last uncovered, by the dismissal of a login screen or at launch. -/
  uncoveredFor : Option Uid

inductive SessionEvent
  | launch (onScreen : Bool)
  | loginButton (email password : Option String)
  | signInAnswered (request : Nat) (result : Option Uid)
  | signInCallback (request : Nat)
  | okayAction
  | logoutButtonPressed (signOutSucceeds : Bool)
  | fetchAnswered (uid : Uid)
  | forcedSignOut
  | chatLogButtonPressed
  | backButton
  | sendButtonPressed (text timestamp : String)
  | textFieldShouldReturn (text timestamp : String)
  deriving DecidableEq

/-- The text and the time of a send. -/
def SessionEvent.message? : SessionEvent → Option (String × String)
  | sendButtonPressed text timestamp | textFieldShouldReturn text timestamp => some (text, timestamp)
  | _ => none

namespace Session

/-- Nothing has been launched yet. -/
def initial (currentUser : Option Uid) : Session :=
  ⟨false, currentUser, [], 0, fun _ => false, none, none, [], [], [], [], none, none⟩

/-- The record under `users/<uid>`. -/
def userRecord (db : Node) (uid : Uid) : Node := db.get [Constant.users, uid.val]

/-- A trap or an exception ends the process. -/
def crash (s : Session) : Session := { s with running := false }

/-! ## The handlers -/

/-- A new login screen; its `homeViewController` is never assigned. -/
def presentLoginView (s : Session) : Session :=
  { s with
    stack := HomeViewController.presentLoginView s.stack s.next
    homeViewController := Function.update s.homeViewController s.next false
    next := s.next + 1
    uncoveredFor := none }

/-- `fetchUserAndSetupNavBarTitle` up to its answer. -/
def fetchUserAndSetupNavBarTitle (s : Session) : Session :=
  match s.currentUser with
  | none => s
  | some uid => { s with fetches := s.fetches ++ [uid] }

def checkIfUserIsLoggedIn (s : Session) (onScreen : Bool) : Session :=
  match s.currentUser with
  | none => if onScreen then s.presentLoginView else s
  | some uid => { s.fetchUserAndSetupNavBarTitle with uncoveredFor := some uid }

/-- A new process starts with Home. -/
def launch (s : Session) (onScreen : Bool) : Session :=
  checkIfUserIsLoggedIn { s with
    running := true
    stack := []
    homeViewController := fun _ => false
    chat := none
    title := none
    signIns := []
    callbacks := []
    fetches := []
    launchUser := s.currentUser
    uncoveredFor := none } onScreen

/-- The completion handler of `authenticate`. -/
def authenticated (s : Session) (login : Nat) : Option Uid → Session
  | none =>
    { s with
      stack := LoginViewController.signInFailed s.stack login s.next
      next := s.next + 1 }
  | some _ =>
    let s' := if s.homeViewController login then s.fetchUserAndSetupNavBarTitle else s
    let stack := LoginViewController.signInSucceeded s.stack login
    { s' with
      stack := stack
      uncoveredFor := if .login login ∈ s.stack ∧ .login login ∉ stack then s.currentUser else s.uncoveredFor }

def handleLogout (s : Session) (signOutSucceeds : Bool) : Session :=
  if signOutSucceeds then { s with currentUser := none } else s

def logoutButtonPressed (s : Session) (signOutSucceeds : Bool) : Session :=
  (s.handleLogout signOutSucceeds).presentLoginView

/-- The answer of a profile fetch. -/
def fetchAnswered (db : Node) (s : Session) (uid : Uid) : Session :=
  match HomeViewController.fetchUserAndSetupNavBarTitle uid.val (userRecord db uid) with
  | .ok (some title) => { s with fetches := s.fetches.erase uid, title := some title }
  | .ok none => { s with fetches := s.fetches.erase uid }
  | .error _ => s.crash

/-- The user that `chatLogButtonPressed` opens the chat with. -/
def hardCodedUser : User where
  id := "TYVlACMnswWh0JghfiyBeDGq2Ij2"
  email := "test1@gmail.com"
  password := "123456"
  username := "faiz joker"
  profileImageURL := some ("https://firebasestorage.googleapis.com/v0/b/ios-chat-apps.appspot.com/o/" ++
    "profile_images%2F98D64492-C31E-4428-9E50-5CB9AF540802.png?alt=media&token=0d7ad306-5529-4fc8-8544-8f056e9f43a8")

def showChatController (s : Session) (user : User) : Session := { s with chat := some (some user) }

/-- The message that a send stores, if it raises nothing. -/
def message (s : Session) (user : Option User) (text timestamp : String) : Except Fault Sent := do
  let values ← ChatLogViewController.handleSendMessage text s.currentUser user timestamp
  return ⟨text, (user.map User.id).getD "", timestamp, s.currentUser, Ref.recordNode values⟩

def handleSendMessage (s : Session) (user : Option User) (text timestamp : String) : Session :=
  match s.message user text timestamp with
  | .ok m => { s with sent := s.sent ++ [m] }
  | .error _ => s.crash

/-- Home itself is visible. -/
def HomeVisible (s : Session) : Prop := s.stack = [] ∧ s.chat = none

instance (s : Session) : Decidable s.HomeVisible :=
  match hs : s.stack, hc : s.chat with
  | [], none => isTrue ⟨hs, hc⟩
  | _ :: _, _ => isFalse fun h => by rw [h.1] at hs; cases hs
  | [], some _ => isFalse fun h => by rw [h.2] at hc; cases hc

/-! ## Steps -/

/-- An event of a running app. -/
def act (count : String → Nat) (db : Node) (s : Session) : SessionEvent → Option Session
  | .launch _ => none
  | .loginButton email password =>
    match s.stack.getLast? with
    | some (.login id) =>
      match LoginViewController.loginButton count email password with
      | some _ => some { s with signIns := s.signIns ++ [(s.next, id)], next := s.next + 1 }
      | none => some s
    | _ => none
  | .signInAnswered request result =>
    match s.signIns.lookup request with
    | some id =>
      some { s with
        currentUser := if result.isSome then result else s.currentUser
        signIns := Screens.settle request s.signIns
        callbacks := s.callbacks ++ [(request, id, result)] }
    | none => none
  | .signInCallback request =>
    match s.callbacks.lookup request with
    | some (id, result) =>
      some (authenticated { s with callbacks := s.callbacks.filter fun c => c.1 ≠ request } id result)
    | none => none
  | .okayAction =>
    match s.stack.getLast? with
    | some (.alert id) => some { s with stack := Modal.dismiss (.alert id) s.stack }
    | _ => none
  | .logoutButtonPressed signOutSucceeds =>
    if s.HomeVisible then some (s.logoutButtonPressed signOutSucceeds) else none
  | .fetchAnswered uid => if uid ∈ s.fetches then some (s.fetchAnswered db uid) else none
  | .forcedSignOut => some { s with currentUser := none }
  | .chatLogButtonPressed => if s.HomeVisible then some (s.showChatController hardCodedUser) else none
  | .backButton => if s.stack = [] ∧ s.chat.isSome then some { s with chat := none } else none
  | .sendButtonPressed text timestamp | .textFieldShouldReturn text timestamp =>
    match s.stack, s.chat with
    | [], some user => some (s.handleSendMessage user text timestamp)
    | _, _ => none

def step (count : String → Nat) (db : Node) (s : Session) (e : SessionEvent) : Option Session :=
  match e with
  | .launch onScreen => some (s.launch onScreen)
  | e => if s.running then s.act count db e else none

/-- What an event does, with its guards. -/
inductive Move (db : Node) (s : Session) : SessionEvent → Session → Prop
  | launch (onScreen : Bool) : Move db s (.launch onScreen) (s.launch onScreen)
  | loginButton {email password : Option String} {id : Nat} (hr : s.running = true)
      (ht : s.stack.getLast? = some (.login id)) : Move db s (.loginButton email password)
        { s with signIns := s.signIns ++ [(s.next, id)], next := s.next + 1 }
  | loginRefused {email password : Option String} (hr : s.running = true) : Move db s (.loginButton email password) s
  | signInAnswered {request id : Nat} {result : Option Uid} (hr : s.running = true)
      (hl : s.signIns.lookup request = some id) : Move db s (.signInAnswered request result)
        { s with
          currentUser := if result.isSome then result else s.currentUser
          signIns := Screens.settle request s.signIns
          callbacks := s.callbacks ++ [(request, id, result)] }
  | signInCallback {request id : Nat} {result : Option Uid} (hr : s.running = true)
      (hl : s.callbacks.lookup request = some (id, result)) : Move db s (.signInCallback request)
        (authenticated { s with callbacks := s.callbacks.filter fun c => c.1 ≠ request } id result)
  | okayAction {id : Nat} (hr : s.running = true) (ht : s.stack.getLast? = some (.alert id)) :
      Move db s .okayAction { s with stack := Modal.dismiss (.alert id) s.stack }
  | logout (signOutSucceeds : Bool) (hr : s.running = true) (hh : s.HomeVisible) :
      Move db s (.logoutButtonPressed signOutSucceeds) (s.logoutButtonPressed signOutSucceeds)
  | fetchAnswered {uid : Uid} (hr : s.running = true) (hm : uid ∈ s.fetches) :
      Move db s (.fetchAnswered uid) (s.fetchAnswered db uid)
  | forcedSignOut (hr : s.running = true) : Move db s .forcedSignOut { s with currentUser := none }
  | chatLogButton (hr : s.running = true) (hh : s.HomeVisible) :
      Move db s .chatLogButtonPressed (s.showChatController hardCodedUser)
  | backButton (hr : s.running = true) : Move db s .backButton { s with chat := none }
  | send {e : SessionEvent} {text timestamp : String} {user : Option User} (hr : s.running = true)
      (he : e.message? = some (text, timestamp)) (hs : s.stack = []) (hc : s.chat = some user) :
      Move db s e (s.handleSendMessage user text timestamp)

variable {count : String → Nat} {db : Node} {s s' : Session}

theorem fetchUserAndSetupNavBarTitle_eq :
    ∃ fetches, s.fetchUserAndSetupNavBarTitle = { s with fetches := fetches } := by
  unfold fetchUserAndSetupNavBarTitle
  split <;> exact ⟨_, rfl⟩

/-- The handler of a successful sign-in changes the screens, and may start a fetch. -/
theorem authenticated_some (login : Nat) (u : Uid) : ∃ fetches uncoveredFor, s.authenticated login (some u) =
    { s with
      stack := LoginViewController.signInSucceeded s.stack login
      fetches := fetches
      uncoveredFor := uncoveredFor } := by
  simp only [authenticated]
  split
  · obtain ⟨fetches, h⟩ := fetchUserAndSetupNavBarTitle_eq (s := s)
    rw [h]
    exact ⟨fetches, _, rfl⟩
  · exact ⟨_, _, rfl⟩

theorem move_of_act {e : SessionEvent} (hr : s.running = true) (h : s.act count db e = some s') : Move db s e s' := by
  cases e with
  | launch => cases h
  | loginButton email password =>
    simp only [act] at h
    split at h
    · split at h
      · cases h; exact .loginButton hr ‹_›
      · cases h; exact .loginRefused hr
    · cases h
  | signInAnswered request result =>
    simp only [act] at h
    split at h
    · cases h; exact .signInAnswered hr ‹_›
    · cases h
  | signInCallback request =>
    simp only [act] at h
    split at h
    · cases h; exact .signInCallback hr ‹_›
    · cases h
  | okayAction =>
    simp only [act] at h
    split at h
    · cases h; exact .okayAction hr ‹_›
    · cases h
  | logoutButtonPressed signOutSucceeds =>
    simp only [act] at h
    split at h
    · cases h; exact .logout _ hr ‹_›
    · cases h
  | fetchAnswered uid =>
    simp only [act] at h
    split at h
    · cases h; exact .fetchAnswered hr ‹_›
    · cases h
  | forcedSignOut => cases h; exact .forcedSignOut hr
  | chatLogButtonPressed =>
    simp only [act] at h
    split at h
    · cases h; exact .chatLogButton hr ‹_›
    · cases h
  | backButton =>
    simp only [act] at h
    split at h
    · cases h; exact .backButton hr
    · cases h
  | sendButtonPressed text timestamp | textFieldShouldReturn text timestamp =>
    simp only [act] at h
    split at h
    · cases h; exact .send hr rfl ‹_› ‹_›
    · cases h

/-- Every step is one of the moves. -/
theorem move_of_step {e : SessionEvent} (h : s.step count db e = some s') : Move db s e s' := by
  unfold step at h
  split at h
  · cases h; exact .launch _
  · split at h
    · exact move_of_act ‹_› h
    · cases h

end Session

end ChatApp
