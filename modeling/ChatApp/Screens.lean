import ChatApp.Lib.Runs
import ChatApp.Lib.Modal

/-!
# The screens over Home

The chain of screens presented over `HomeViewController`, the actions of the user on the topmost screen and the
completions that act on it: sign-ins started by `LoginViewController.authenticate` and registrations started by
`RegisterViewController`. Both end with `self.dismiss`, whose effect depends on what is presented at that moment.

- `Screens.Inv`: the screens of the chain are distinct instances; every step keeps it (`step_inv`, `run_screens_inv`);
- `signIn_uncovers_iff`: the dismissal of a successful sign-in removes its login screen iff that screen is on top.

`count` is the number of characters of a string, as Swift counts them.
-/

namespace ChatApp

open Lib Lib.Runs

/-- A screen over Home, with the number of its instance; an image picker also knows its delegate. -/
inductive Screen
  | login (id : Nat)
  | alert (id : Nat)
  | register (id : Nat)
  | picker (id delegate : Nat)
  | newMessage (id : Nat)
  deriving DecidableEq, Repr

def Screen.id : Screen → Nat
  | login id | alert id | register id | picker id _ | newMessage id => id

/-! ## The handlers that present and dismiss -/

def HomeViewController.presentLoginView (stack : List Screen) (id : Nat) : List Screen :=
  Modal.present none (.login id) stack

def HomeViewController.newMessageButtonPressed (stack : List Screen) (id : Nat) : List Screen :=
  Modal.present none (.newMessage id) stack

namespace LoginViewController

/-- The email and the password `loginButton` calls `authenticate` with, if both are long enough. -/
def loginButton (count : String → Nat) (email password : Option String) : Option (String × String) :=
  match email, password with
  | some email, some password => if 4 < count email ∧ 4 < count password then some (email, password) else none
  | _, _ => none

/-- The completion of a failed sign-in presents an alert. -/
def signInFailed (stack : List Screen) (login id : Nat) : List Screen :=
  Modal.present (some (.login login)) (.alert id) stack

/-- The completion of a successful sign-in ends with `self.dismiss`. -/
def signInSucceeded (stack : List Screen) (login : Nat) : List Screen := Modal.dismiss (.login login) stack

end LoginViewController

namespace RegisterViewController

def handleSelectProfileImageView (stack : List Screen) (register id : Nat) : List Screen :=
  Modal.present (some (.register register)) (.picker id register) stack

/-- `self.dismiss`, which `backButtonPressed`, both delegate methods of the picker and the completion of a
registration end with. -/
def dismiss (stack : List Screen) (register : Nat) : List Screen := Modal.dismiss (.register register) stack

end RegisterViewController

/-! ## Steps -/

structure Screens where
  /-- The screens over Home, from Home upwards. -/
  stack : List Screen
  /-- The number of the next instance or request. -/
  next : Nat
  /-- The sign-ins in flight, with the login screens that started them. -/
  signIns : List (Nat × Nat)
  /-- The registrations in flight, with the register screens that started them. -/
  registrations : List (Nat × Nat)
  deriving DecidableEq, Repr

def Screens.initial : Screens := ⟨[], 0, [], []⟩

inductive ScreensEvent
  | presentLoginView
  | newMessageButtonPressed
  | didSelectRow
  | loginButton (email password : Option String)
  | signInCompleted (request : Nat) (success : Bool)
  | okayAction
  | createNewAccount
  | backButtonPressed
  | handleSelectProfileImageView
  | imagePickerControllerDidCancel
  | imagePickerControllerDidFinish
  | pickerSwipedDown
  | registerButtonPressed
  | registrationCompleted (request : Nat) (success : Bool)
  deriving DecidableEq, Repr

namespace Screens

/-- A request leaves the list of those in flight. -/
def settle (request : Nat) (flight : List (Nat × Nat)) : List (Nat × Nat) := flight.filter fun r => r.1 ≠ request

/-- The user acts on the topmost screen only; completions come at any time. -/
def step (count : String → Nat) (s : Screens) : ScreensEvent → Option Screens
  | .presentLoginView =>
    some { s with stack := HomeViewController.presentLoginView s.stack s.next, next := s.next + 1 }
  | .newMessageButtonPressed =>
    some { s with stack := HomeViewController.newMessageButtonPressed s.stack s.next, next := s.next + 1 }
  | .didSelectRow =>
    match s.stack.getLast? with
    | some (.newMessage id) => some { s with stack := Modal.dismiss (.newMessage id) s.stack }
    | _ => none
  | .loginButton email password =>
    match s.stack.getLast? with
    | some (.login id) =>
      match LoginViewController.loginButton count email password with
      | some _ => some { s with signIns := s.signIns ++ [(s.next, id)], next := s.next + 1 }
      | none => some s
    | _ => none
  | .signInCompleted request success =>
    match s.signIns.lookup request, success with
    | some id, true =>
      some { s with stack := LoginViewController.signInSucceeded s.stack id, signIns := settle request s.signIns }
    | some id, false =>
      some { s with
        stack := LoginViewController.signInFailed s.stack id s.next
        next := s.next + 1
        signIns := settle request s.signIns }
    | none, _ => none
  | .okayAction =>
    match s.stack.getLast? with
    | some (.alert id) => some { s with stack := Modal.dismiss (.alert id) s.stack }
    | _ => none
  | .createNewAccount =>
    match s.stack.getLast? with
    | some (.login id) =>
      some { s with stack := Modal.present (some (.login id)) (.register s.next) s.stack, next := s.next + 1 }
    | _ => none
  | .backButtonPressed =>
    match s.stack.getLast? with
    | some (.register id) => some { s with stack := RegisterViewController.dismiss s.stack id }
    | _ => none
  | .handleSelectProfileImageView =>
    match s.stack.getLast? with
    | some (.register id) =>
      some { s with
        stack := RegisterViewController.handleSelectProfileImageView s.stack id s.next
        next := s.next + 1 }
    | _ => none
  | .imagePickerControllerDidCancel | .imagePickerControllerDidFinish =>
    match s.stack.getLast? with
    | some (.picker _ delegate) => some { s with stack := RegisterViewController.dismiss s.stack delegate }
    | _ => none
  | .pickerSwipedDown =>
    match s.stack.getLast? with
    | some (.picker id delegate) => some { s with stack := Modal.dismiss (.picker id delegate) s.stack }
    | _ => none
  | .registerButtonPressed =>
    match s.stack.getLast? with
    | some (.register id) =>
      some { s with registrations := s.registrations ++ [(s.next, id)], next := s.next + 1 }
    | _ => none
  | .registrationCompleted request success =>
    match s.registrations.lookup request, success with
    | some id, true =>
      some { s with
        stack := RegisterViewController.dismiss s.stack id
        registrations := settle request s.registrations }
    | some _, false => some { s with registrations := settle request s.registrations }
    | none, _ => none

/-- The screens of the chain are distinct instances, numbered below the next number. -/
structure Inv (s : Screens) : Prop where
  nodup : s.stack.Nodup
  fresh : ∀ x ∈ s.stack, x.id < s.next

variable {count : String → Nat} {s s' : Screens}

/-- What one step does to the chain: nothing, a dismissal, or the presentation of a new instance. -/
theorem step_stack {e : ScreensEvent} (h : s.step count e = some s') : s.next ≤ s'.next ∧
    (s'.stack = s.stack ∨ (∃ x, s'.stack = Modal.dismiss x s.stack) ∨
      ∃ p x, s'.stack = Modal.present p x s.stack ∧ x.id = s.next ∧ s'.next = s.next + 1) := by
  cases e with
  | presentLoginView => cases h; exact ⟨by simp, Or.inr (Or.inr ⟨none, .login s.next, rfl, rfl, rfl⟩)⟩
  | newMessageButtonPressed => cases h; exact ⟨by simp, Or.inr (Or.inr ⟨none, .newMessage s.next, rfl, rfl, rfl⟩)⟩
  | loginButton email password =>
    simp only [step] at h
    split at h
    · split at h <;> cases h <;> exact ⟨by simp, Or.inl rfl⟩
    · cases h
  | signInCompleted request success =>
    simp only [step] at h
    split at h
    · cases h; exact ⟨le_rfl, Or.inr (Or.inl ⟨_, rfl⟩)⟩
    · cases h; exact ⟨by simp, Or.inr (Or.inr ⟨_, .alert s.next, rfl, rfl, rfl⟩)⟩
    · cases h
  | createNewAccount =>
    simp only [step] at h
    split at h
    · cases h; exact ⟨by simp, Or.inr (Or.inr ⟨_, .register s.next, rfl, rfl, rfl⟩)⟩
    · cases h
  | handleSelectProfileImageView =>
    simp only [step] at h
    split at h
    · cases h; exact ⟨by simp, Or.inr (Or.inr ⟨_, .picker s.next _, rfl, rfl, rfl⟩)⟩
    · cases h
  | registerButtonPressed =>
    simp only [step] at h
    split at h
    · cases h; exact ⟨by simp, Or.inl rfl⟩
    · cases h
  | registrationCompleted request success =>
    simp only [step] at h
    split at h
    · cases h; exact ⟨le_rfl, Or.inr (Or.inl ⟨_, rfl⟩)⟩
    · cases h; exact ⟨le_rfl, Or.inl rfl⟩
    · cases h
  | didSelectRow | okayAction | backButtonPressed | imagePickerControllerDidCancel | imagePickerControllerDidFinish
  | pickerSwipedDown =>
    simp only [step] at h
    split at h
    · cases h; exact ⟨le_rfl, Or.inr (Or.inl ⟨_, rfl⟩)⟩
    · cases h

theorem step_inv {e : ScreensEvent} (hi : Inv s) (h : s.step count e = some s') : Inv s' := by
  obtain ⟨hnext, hst | ⟨x, hst⟩ | ⟨p, x, hst, hx, hn⟩⟩ := step_stack h
  · exact ⟨hst ▸ hi.nodup, fun y hy => (hi.fresh y (hst ▸ hy)).trans_le hnext⟩
  · refine ⟨hst ▸ Modal.dismiss_nodup hi.nodup, fun y hy => ?_⟩
    rw [hst] at hy
    exact (hi.fresh y (Modal.mem_of_mem_dismiss hy)).trans_le hnext
  · have hfresh : x ∉ s.stack := fun hm => by
      have := hi.fresh x hm
      omega
    refine ⟨hst ▸ Modal.present_nodup hi.nodup hfresh, fun y hy => ?_⟩
    rw [hst] at hy
    rcases Modal.mem_present hy with hy | rfl
    · exact (hi.fresh y hy).trans_le hnext
    · omega

/-- The screens over Home are distinct in every reachable state. -/
theorem run_screens_inv {es : List ScreensEvent} (h : run (step count) initial es = some s) : Inv s :=
  run_inv (fun _ _ _ hi hs => step_inv hi hs) h ⟨List.nodup_nil, by simp [initial]⟩

/-- **The dismissal of a successful sign-in.** Whatever happened before, it uncovers Home of its login screen exactly
when nothing is presented over that screen. -/
theorem signIn_uncovers_iff {es : List ScreensEvent} (h : run (step count) initial es = some s) {request id : Nat}
    (hreq : s.signIns.lookup request = some id) (hin : Screen.login id ∈ s.stack) :
    ∃ s', s.step count (.signInCompleted request true) = some s' ∧
      (Screen.login id ∉ s'.stack ↔ s.stack.getLast? = some (.login id)) := by
  refine ⟨{ s with stack := LoginViewController.signInSucceeded s.stack id, signIns := settle request s.signIns },
    by simp [step, hreq], ?_⟩
  simp only [LoginViewController.signInSucceeded]
  rw [Modal.mem_dismiss_self (run_screens_inv h).nodup hin, not_not]

/-- One press of the login button, answered while the login screen is on top. -/
theorem signIn_uncovers_alone : ∃ s s',
    run (step String.length) initial [.presentLoginView, .loginButton (some "me@mail.org") (some "secret")] = some s ∧
    s.signIns.lookup 1 = some 0 ∧ Screen.login 0 ∈ s.stack ∧
    s.step String.length (.signInCompleted 1 true) = some s' ∧ Screen.login 0 ∉ s'.stack := by
  have hrun : run (step String.length) initial [.presentLoginView, .loginButton (some "me@mail.org") (some "secret")] =
      some ⟨[.login 0], 2, [(1, 0)], []⟩ := by decide
  have hreq : ([(1, 0)] : List (Nat × Nat)).lookup 1 = some 0 := by decide
  have hin : Screen.login 0 ∈ [Screen.login 0] := by decide
  obtain ⟨s', hs', hiff⟩ := signIn_uncovers_iff hrun hreq hin
  exact ⟨_, s', hrun, hreq, hin, hs', hiff.2 rfl⟩

/-- Two presses of the login button; the first one fails and its alert is still up when the second one succeeds. The
dismissal takes the alert away and the login screen stays. -/
theorem signIn_under_alert_stays : ∃ s s',
    run (step String.length) initial [.presentLoginView, .loginButton (some "me@mail.org") (some "wrong"),
      .loginButton (some "me@mail.org") (some "secret"), .signInCompleted 1 false] = some s ∧
    s.signIns.lookup 2 = some 0 ∧ Screen.login 0 ∈ s.stack ∧
    s.step String.length (.signInCompleted 2 true) = some s' ∧ Screen.login 0 ∈ s'.stack :=
  ⟨⟨[.login 0, .alert 3], 4, [(2, 0)], []⟩, ⟨[.login 0], 4, [], []⟩, by decide, by decide, by decide, by decide,
    by decide⟩

end Screens

end ChatApp
