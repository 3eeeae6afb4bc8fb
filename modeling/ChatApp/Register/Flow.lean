import ChatApp.Lib.Runs
import ChatApp.Records

/-!
# Registrations: four asynchronous calls on three stores

`registerButtonPressed` starts a chain of calls, each made by the completion handler of the one before: `createUser`
(Auth), `putData` and `downloadURL` (Storage), `updateChildValues` (Database). Any number of attempts on any number of
clients overlap; messages are sent in between.

- `Stage`: how far an attempt has come, with what its closures have captured;
- `RegisterViewController.createUserCompleted`, `putDataCompleted`, `downloadURLCompleted`, `updateCompleted`: the
  completion handlers, each with its early returns;
- `Registrations.step`: one call, answer or completion; `Move` lists what each can do (`move_of_step`).

`jpegData` is `UIImage.jpegData(compressionQuality: 0.1)`. A call that raises ends its process; what the other events
of a run then do is done by other processes.
-/

namespace ChatApp

open Lib Lib.Runs

/-- An account of Firebase Auth. -/
structure Account where
  uid : Uid
  email : String
  password : String
  deriving DecidableEq

/-- How `createUserWithEmail` ends. It can report an error although the account is there: the sign-up has succeeded, but
the account could not be looked up (`completeSignInWithAccessToken`) or not be saved (`updateCurrentUser`). -/
inductive CreateUserAnswer
  | error
  | errorAfterSignUp (uid : Uid)
  | authResult (uid : Uid)
  deriving DecidableEq

namespace CreateUserAnswer

/-- The account on the server. -/
def account : CreateUserAnswer → Option Uid
  | error => none
  | errorAfterSignUp uid | authResult uid => some uid

/-- The `authResult` of the completion handler; it is `nil` with an error. -/
def authResult? : CreateUserAnswer → Option Uid
  | error | errorAfterSignUp _ => none
  | authResult uid => some uid

end CreateUserAnswer

inductive Stage
  /-- `createUser` is not answered. -/
  | createUser
  /-- `createUser` is answered, and its completion handler has not run. -/
  | created (answer : CreateUserAnswer)
  | putData (uid : Uid)
  | downloadURL (uid : Uid)
  | updateChildValues (uid : Uid) (profileImageURL : String) (userReference : Ref)
  | recorded (uid : Uid) (profileImageURL : String)
  /-- A completion handler has returned early. -/
  | stopped (account : Option Uid)
  /-- `updateChildValues` has raised. -/
  | raised (uid : Uid) (fault : Fault)
  deriving DecidableEq

namespace Stage

/-- The account that the attempt has created. -/
def uid? : Stage → Option Uid
  | createUser => none
  | created answer => answer.account
  | stopped account => account
  | putData uid | downloadURL uid | updateChildValues uid _ _ | recorded uid _ | raised uid _ => some uid

/-- The uid that `createUser` has returned, of an attempt that has not stopped. -/
def returned? : Stage → Option Uid
  | createUser | stopped _ => none
  | created answer => answer.authResult?
  | putData uid | downloadURL uid | updateChildValues uid _ _ | recorded uid _ | raised uid _ => some uid

/-- The URL that `downloadURL` has answered with. -/
def url? : Stage → Option String
  | updateChildValues _ url _ | recorded _ url => some url
  | _ => none

/-- A call is unanswered or a completion handler has not run. -/
def InFlight : Stage → Prop
  | recorded _ _ | stopped _ | raised _ _ => False
  | _ => True

/-- The account exists, and no record will be written any more. -/
def Abandoned : Stage → Prop
  | created (.errorAfterSignUp _) | stopped (some _) | raised _ _ => True
  | _ => False

end Stage

/-- One press of the register button, with what was typed. -/
structure Attempt (C : Type) where
  client : C
  username : String
  email : String
  password : String
  stage : Stage

namespace RegisterViewController

/-- The strings that `registerButtonPressed` passes on; the confirmation is read, but not compared. -/
def registerButtonPressed (username email password confirmPassword : Option String) :
    Option (String × String × String) :=
  match username, email, password, confirmPassword with
  | some username, some email, some password, some _ => some (username, email, password)
  | _, _, _, _ => none

/-- The completion handler of `createUser` goes on only without an error and with the data of an image. -/
def createUserCompleted {Image Data : Type} (jpegData : Image → Option Data) (answer : CreateUserAnswer)
    (image : Option Image) : Stage :=
  match answer.authResult? with
  | none => .stopped answer.account
  | some uid =>
    match image.bind jpegData with
    | some _ => .putData uid
    | none => .stopped (some uid)

def putDataCompleted (uid : Uid) (success : Bool) : Stage :=
  if success then .downloadURL uid else .stopped (some uid)

/-- The completion handler of `downloadURL` builds the record and calls `handleAddUserIntoDatabaseWithUID`. -/
def downloadURLCompleted (username email password : String) (uid : Uid) (url : Option String) : Stage :=
  match url with
  | none => .stopped (some uid)
  | some profileImageURL =>
    match handleAddUserIntoDatabaseWithUID uid (values username email password profileImageURL) with
    | .ok userReference => .updateChildValues uid profileImageURL userReference
    | .error fault => .raised uid fault

def updateCompleted (uid : Uid) (profileImageURL : String) (success : Bool) : Stage :=
  if success then .recorded uid profileImageURL else .stopped (some uid)

end RegisterViewController

/-- The stores and the attempts so far. -/
structure Registrations (C : Type) where
  accounts : List Account
  currentUser : C → Option Uid
  db : Node
  attempts : List (Attempt C)

/-- What can happen; answers name their attempt. -/
inductive RegisterEvent (C Image : Type)
  | registerButtonPressed (client : C) (username email password confirmPassword : Option String)
  | createUserAnswered (i : Nat) (answer : CreateUserAnswer)
  | createUserCallback (i : Nat) (image : Option Image)
  | putDataAnswered (i : Nat) (success : Bool)
  | downloadURLAnswered (i : Nat) (url : Option String)
  | updateChildValuesAnswered (i : Nat) (success : Bool)
  | handleSendMessage (client : C) (key text : String) (user : Option User) (timestamp : String)

namespace Registrations

variable {C Image Data : Type}

/-- The record under `users/<key>`. -/
def userRecord (s : Registrations C) (key : String) : Node := s.db.get [Constant.users, key]

/-- All records of users. -/
def users (s : Registrations C) : Node := s.db.get [Constant.users]

/-- `createUser` can succeed: the email has no account, and the uid is a new one. -/
def Available (s : Registrations C) (email : String) (uid : Uid) : Prop :=
  (∀ account ∈ s.accounts, account.email ≠ email ∧ account.uid ≠ uid) ∧ (s.userRecord uid.val).isEmpty = true

instance (s : Registrations C) (email : String) (uid : Uid) : Decidable (s.Available email uid) :=
  inferInstanceAs (Decidable (_ ∧ _))

/-- An attempt with its stage. -/
def attempt? (s : Registrations C) (i : Nat) : Option (Attempt C × Stage) := s.attempts[i]?.map fun a => (a, a.stage)

/-- The attempt `i` comes to another stage. -/
def advance (s : Registrations C) (i : Nat) (a : Attempt C) (stage : Stage) : Registrations C :=
  { s with attempts := s.attempts.set i { a with stage := stage } }

theorem attempt?_eq_some {s : Registrations C} {i : Nat} {a : Attempt C} {stage : Stage} :
    s.attempt? i = some (a, stage) ↔ s.attempts[i]? = some a ∧ a.stage = stage := by
  simp [attempt?, Prod.ext_iff]

variable [DecidableEq C]

/-- A new account, which is signed in unless there was an error. -/
def createUser (s : Registrations C) (i : Nat) (a : Attempt C) (answer : CreateUserAnswer) (uid : Uid) :
    Registrations C :=
  { s.advance i a (.created answer) with
    accounts := s.accounts ++ [⟨uid, a.email, a.password⟩]
    currentUser := match answer.authResult? with
      | some uid => Function.update s.currentUser a.client (some uid)
      | none => s.currentUser }

/-- The server applies the update of a registration. -/
def addUser (s : Registrations C) (i : Nat) (a : Attempt C) (uid : Uid) (profileImageURL : String)
    (userReference : Ref) : Registrations C :=
  { s.advance i a (RegisterViewController.updateCompleted uid profileImageURL true) with
    db := userReference.updateChildValues
      (RegisterViewController.values a.username a.email a.password profileImageURL) s.db }

def step (jpegData : Image → Option Data) (s : Registrations C) : RegisterEvent C Image → Option (Registrations C)
  | .registerButtonPressed client username email password confirmPassword =>
    match RegisterViewController.registerButtonPressed username email password confirmPassword with
    | some (username, email, password) =>
      some { s with attempts := s.attempts ++ [⟨client, username, email, password, .createUser⟩] }
    | none => some s
  | .createUserAnswered i answer =>
    match s.attempt? i, answer.account with
    | some (a, .createUser), none => some (s.advance i a (.created answer))
    | some (a, .createUser), some uid => if s.Available a.email uid then some (s.createUser i a answer uid) else none
    | _, _ => none
  | .createUserCallback i image =>
    match s.attempt? i with
    | some (a, .created answer) =>
      some (s.advance i a (RegisterViewController.createUserCompleted jpegData answer image))
    | _ => none
  | .putDataAnswered i success =>
    match s.attempt? i with
    | some (a, .putData uid) => some (s.advance i a (RegisterViewController.putDataCompleted uid success))
    | _ => none
  | .downloadURLAnswered i url =>
    match s.attempt? i with
    | some (a, .downloadURL uid) =>
      some (s.advance i a (RegisterViewController.downloadURLCompleted a.username a.email a.password uid url))
    | _ => none
  | .updateChildValuesAnswered i success =>
    match s.attempt? i with
    | some (a, .updateChildValues uid profileImageURL userReference) =>
      if success then some (s.addUser i a uid profileImageURL userReference)
      else some (s.advance i a (RegisterViewController.updateCompleted uid profileImageURL false))
    | _ => none
  | .handleSendMessage client key text user timestamp =>
    if FValidation.isValidKey key = true ∧ (s.db.get [Constant.chats, key]).isEmpty = true then
      match ChatLogViewController.handleSendMessage text (s.currentUser client) user timestamp with
      | .ok values => some { s with db := (⟨[Constant.chats, key]⟩ : Ref).updateChildValues values s.db }
      | .error _ => some s
    else none

/-- What an event does, with its guards. -/
inductive Move (jpegData : Image → Option Data) (s : Registrations C) :
    RegisterEvent C Image → Registrations C → Prop
  | pressed {c : C} {u e p cp : Option String} {username email password : String}
      (hf : RegisterViewController.registerButtonPressed u e p cp = some (username, email, password)) :
      Move jpegData s (.registerButtonPressed c u e p cp)
        { s with attempts := s.attempts ++ [⟨c, username, email, password, .createUser⟩] }
  | formNotValid {c : C} {u e p cp : Option String}
      (hf : RegisterViewController.registerButtonPressed u e p cp = none) :
      Move jpegData s (.registerButtonPressed c u e p cp) s
  | createUserFailed {i : Nat} {a : Attempt C} {answer : CreateUserAnswer} (ha : s.attempts[i]? = some a)
      (hs : a.stage = .createUser) (hn : answer.account = none) :
      Move jpegData s (.createUserAnswered i answer) (s.advance i a (.created answer))
  | accountCreated {i : Nat} {a : Attempt C} {answer : CreateUserAnswer} {uid : Uid} (ha : s.attempts[i]? = some a)
      (hs : a.stage = .createUser) (hu : answer.account = some uid) (hav : s.Available a.email uid) :
      Move jpegData s (.createUserAnswered i answer) (s.createUser i a answer uid)
  | createUserCallback {i : Nat} {a : Attempt C} {answer : CreateUserAnswer} {image : Option Image}
      (ha : s.attempts[i]? = some a) (hs : a.stage = .created answer) :
      Move jpegData s (.createUserCallback i image)
        (s.advance i a (RegisterViewController.createUserCompleted jpegData answer image))
  | putDataAnswered {i : Nat} {a : Attempt C} {uid : Uid} {success : Bool} (ha : s.attempts[i]? = some a)
      (hs : a.stage = .putData uid) : Move jpegData s (.putDataAnswered i success)
        (s.advance i a (RegisterViewController.putDataCompleted uid success))
  | downloadURLAnswered {i : Nat} {a : Attempt C} {uid : Uid} {url : Option String} (ha : s.attempts[i]? = some a)
      (hs : a.stage = .downloadURL uid) : Move jpegData s (.downloadURLAnswered i url)
        (s.advance i a (RegisterViewController.downloadURLCompleted a.username a.email a.password uid url))
  | updateAccepted {i : Nat} {a : Attempt C} {uid : Uid} {url : String} {ref : Ref} (ha : s.attempts[i]? = some a)
      (hs : a.stage = .updateChildValues uid url ref) :
      Move jpegData s (.updateChildValuesAnswered i true) (s.addUser i a uid url ref)
  | updateRejected {i : Nat} {a : Attempt C} {uid : Uid} {url : String} {ref : Ref} (ha : s.attempts[i]? = some a)
      (hs : a.stage = .updateChildValues uid url ref) : Move jpegData s (.updateChildValuesAnswered i false)
        (s.advance i a (RegisterViewController.updateCompleted uid url false))
  | sent {c : C} {key text timestamp : String} {user : Option User} {values : List (String × Option String)}
      (hk : (s.db.get [Constant.chats, key]).isEmpty = true)
      (hv : ChatLogViewController.handleSendMessage text (s.currentUser c) user timestamp = .ok values) :
      Move jpegData s (.handleSendMessage c key text user timestamp)
        { s with db := (⟨[Constant.chats, key]⟩ : Ref).updateChildValues values s.db }
  | sendRaised {c : C} {key text timestamp : String} {user : Option User} :
      Move jpegData s (.handleSendMessage c key text user timestamp) s

variable {jpegData : Image → Option Data} {s s' : Registrations C} {e : RegisterEvent C Image}

/-- Every step is one of the moves. -/
theorem move_of_step (h : s.step jpegData e = some s') : Move jpegData s e s' := by
  cases e with
  | registerButtonPressed c u e p cp =>
    simp only [step] at h
    split at h
    · cases h; exact .pressed ‹_›
    · cases h; exact .formNotValid ‹_›
  | createUserAnswered i answer =>
    simp only [step] at h
    split at h
    · rename_i hattempt hnone
      obtain ⟨ha, hs⟩ := attempt?_eq_some.1 hattempt
      cases h; exact .createUserFailed ha hs hnone
    · rename_i hattempt haccount
      obtain ⟨ha, hs⟩ := attempt?_eq_some.1 hattempt
      split at h
      · cases h; exact .accountCreated ha hs haccount ‹_›
      · cases h
    · cases h
  | createUserCallback i image =>
    simp only [step] at h
    split at h
    · obtain ⟨ha, hs⟩ := attempt?_eq_some.1 ‹_›
      cases h; exact .createUserCallback ha hs
    · cases h
  | putDataAnswered i success =>
    simp only [step] at h
    split at h
    · obtain ⟨ha, hs⟩ := attempt?_eq_some.1 ‹_›
      cases h; exact .putDataAnswered ha hs
    · cases h
  | downloadURLAnswered i url =>
    simp only [step] at h
    split at h
    · obtain ⟨ha, hs⟩ := attempt?_eq_some.1 ‹_›
      cases h; exact .downloadURLAnswered ha hs
    · cases h
  | updateChildValuesAnswered i success =>
    simp only [step] at h
    split at h
    · obtain ⟨ha, hs⟩ := attempt?_eq_some.1 ‹_›
      cases success with
      | false => cases h; exact .updateRejected ha hs
      | true => cases h; exact .updateAccepted ha hs
    · cases h
  | handleSendMessage c key text user timestamp =>
    simp only [step] at h
    split at h
    · rename_i hkey
      split at h
      · cases h; exact .sent hkey.2 ‹_›
      · cases h; exact .sendRaised
    · cases h

end Registrations

end ChatApp
