import ChatApp.Lib.Runs
import Mathlib.Algebra.Ring.Int.Defs

/-!
# The keyboard handlers

`keyboardWillChange` of the register screen and of the login screen. The register screen hides the profile picture in
the completion block of the show animation and unhides it at once when the keyboard leaves; the completion blocks of
earlier shows may still be outstanding then (`Form.outstanding`).

- `run_quiet`: between two notifications the completions can only hide the picture, and do so if one of them runs;
- `layout_matches_iff`: with no completion outstanding, the form matches the last notification exactly when no
  completion was outstanding as the last hide was handled;
- `login_layout_matches`: the login screen defers nothing and always matches.

The type `F` of lengths and alpha values is arbitrary: the code only negates a height.
-/

namespace ChatApp

open Lib.Runs

/-- The notifications the two screens observe. -/
inductive KeyboardNotification
  | keyboardWillShow
  | keyboardWillHide
  deriving DecidableEq, Repr

/-- A notification, with the height of the frame in its user info. -/
structure Notification (F : Type) where
  name : KeyboardNotification
  height : Option F
  deriving DecidableEq, Repr

variable {F : Type} [Zero F] [One F] [Neg F]

namespace RegisterViewController

/-- What the handler changes on the register screen, and the number of completion blocks still to run. All of them
run the same code. -/
structure Form (F : Type) where
  isHidden : Bool
  alpha : F
  constant : F
  outstanding : Nat
  deriving DecidableEq, Repr

/-- The form as the storyboard makes it. -/
def Form.initial : Form F := ⟨false, 1, 0, 0⟩

def keyboardWillChange (form : Form F) (notification : Notification F) : Form F :=
  match notification.height with
  | none => form
  | some height =>
    match notification.name with
    | .keyboardWillShow =>
      { form with alpha := 0, constant := -height, outstanding := form.outstanding + 1 }
    | .keyboardWillHide => { form with isHidden := false, alpha := 1, constant := 0 }

/-- The completion block of the show animation. -/
def animationCompletion (form : Form F) (_finished : Bool) : Form F :=
  { form with isHidden := true, outstanding := form.outstanding - 1 }

inductive FormEvent (F : Type)
  | notification (n : Notification F)
  | completion (finished : Bool)
  deriving DecidableEq, Repr

def Form.step (form : Form F) : FormEvent F → Option (Form F)
  | .notification n => some (keyboardWillChange form n)
  | .completion finished => if form.outstanding = 0 then none else some (animationCompletion form finished)

/-- The name and height of a notification that carries a frame. -/
def FormEvent.framed : FormEvent F → Option (KeyboardNotification × F)
  | .notification n => n.height.map fun h => (n.name, h)
  | .completion _ => none

/-- The last notification that carried a frame. -/
def lastNotification (es : List (FormEvent F)) : Option (KeyboardNotification × F) :=
  es.reverse.findSome? FormEvent.framed

/-- The layout that belongs to the last notification. -/
def Form.Matches (form : Form F) : Option (KeyboardNotification × F) → Prop
  | some (.keyboardWillShow, height) => form.isHidden = true ∧ form.alpha = 0 ∧ form.constant = -height
  | some (.keyboardWillHide, _) | none => form.isHidden = false ∧ form.alpha = 1 ∧ form.constant = 0

omit [Zero F] [One F] [Neg F] in
/-- The last notification of a run cuts it into the run before and a run of completions. -/
theorem lastNotification_eq_some {es : List (FormEvent F)} {x : KeyboardNotification × F} :
    lastNotification es = some x ↔
      ∃ pre e post, es = pre ++ e :: post ∧ e.framed = some x ∧ ∀ f ∈ post, f.framed = none := by
  unfold lastNotification
  rw [List.findSome?_eq_some_iff]
  constructor
  · rintro ⟨l₁, a, l₂, heq, ha, hl⟩
    refine ⟨l₂.reverse, a, l₁.reverse, ?_, ha, fun f hf => hl f (by simpa using hf)⟩
    rw [← List.reverse_reverse es, heq]
    simp
  · rintro ⟨pre, e, post, rfl, he, hpost⟩
    exact ⟨post.reverse, e, pre.reverse, by simp, he, fun f hf => hpost f (by simpa using hf)⟩

omit [Zero F] [One F] [Neg F] in
theorem lastNotification_eq_none {es : List (FormEvent F)} :
    lastNotification es = none ↔ ∀ f ∈ es, f.framed = none := by
  simp [lastNotification, List.findSome?_eq_none_iff]

/-- An event without a frame runs a completion or does nothing. -/
theorem step_quiet {form form' : Form F} {e : FormEvent F} (he : e.framed = none) (h : form.step e = some form') :
    form' = form ∨ (form.outstanding ≠ 0 ∧
      form' = { form with isHidden := true, outstanding := form.outstanding - 1 }) := by
  cases e with
  | notification n =>
    have hn : n.height = none := by simpa [FormEvent.framed] using he
    left
    simpa [Form.step, keyboardWillChange, hn] using h.symm
  | completion finished =>
    right
    simp only [Form.step, animationCompletion] at h
    split at h
    · cases h
    · exact ⟨‹_›, (Option.some.inj h).symm⟩

/-- **Between notifications.** The picture ends up hidden iff it was or one of the completions ran. -/
theorem run_quiet {es : List (FormEvent F)} {form form' : Form F} (h : run Form.step form es = some form')
    (hq : ∀ e ∈ es, e.framed = none) :
    form'.alpha = form.alpha ∧ form'.constant = form.constant ∧ form'.outstanding ≤ form.outstanding ∧
      (form'.isHidden = true ↔ form.isHidden = true ∨ form'.outstanding < form.outstanding) := by
  induction es generalizing form with
  | nil => cases h; simp
  | cons e es ih =>
    obtain ⟨t, ht, hr⟩ := run_cons.1 h
    have hrest : ∀ f ∈ es, f.framed = none := fun f hf => hq f (List.mem_cons_of_mem _ hf)
    obtain ⟨ha, hc, ho, hh⟩ := ih hr hrest
    rcases step_quiet (hq e List.mem_cons_self) ht with rfl | ⟨h0, rfl⟩
    · exact ⟨ha, hc, ho, hh⟩
    · simp only at ho hh
      refine ⟨ha, hc, by omega, ?_⟩
      rw [hh]
      simp only [true_or, true_iff]
      right; omega

/-- The form right after a notification that carried a frame. -/
theorem step_framed {form form' : Form F} {e : FormEvent F} {name : KeyboardNotification} {height : F}
    (he : e.framed = some (name, height)) (h : form.step e = some form') :
    form' = keyboardWillChange form ⟨name, some height⟩ := by
  cases e with
  | completion finished => cases he
  | notification n =>
    obtain ⟨n, hgt⟩ := n
    cases hgt with
    | none => cases he
    | some x =>
      cases he
      exact (Option.some.inj h).symm

/-- **The register form and the keyboard.** In a state with no completion outstanding, the form matches the last
notification iff, in case that was a hide, no completion was outstanding when it was handled. -/
theorem layout_matches_iff {es : List (FormEvent F)} {form : Form F}
    (h : run Form.step Form.initial es = some form) (hout : form.outstanding = 0) :
    form.Matches (lastNotification es) ↔
      ∀ pre e post height before, es = pre ++ e :: post → e.framed = some (.keyboardWillHide, height) →
        (∀ f ∈ post, f.framed = none) → run Form.step Form.initial pre = some before → before.outstanding = 0 := by
  constructor
  · intro hm pre e post height before heq he hpost hbefore
    rw [lastNotification_eq_some.2 ⟨pre, e, post, heq, he, hpost⟩] at hm
    obtain ⟨t, t', ht, hstep, hr⟩ := run_split.1 (heq ▸ h)
    cases hbefore.symm.trans ht
    obtain ⟨-, -, -, hh⟩ := run_quiet hr hpost
    rw [step_framed he hstep] at hh
    -- a completion that ran since the hide would have hidden the picture
    have hvis : ¬form.outstanding < before.outstanding := by
      intro hlt
      have : form.isHidden = true := hh.2 (Or.inr hlt)
      rw [hm.1] at this
      cases this
    omega
  · intro hcalm
    cases hlast : lastNotification es with
    | none =>
      obtain ⟨ha, hc, ho, hh⟩ := run_quiet h (lastNotification_eq_none.1 hlast)
      refine ⟨?_, ha, hc⟩
      simpa [Form.initial] using hh
    | some x =>
      obtain ⟨name, height⟩ := x
      obtain ⟨pre, e, post, heq, he, hpost⟩ := lastNotification_eq_some.1 hlast
      obtain ⟨t, t', ht, hstep, hr⟩ := run_split.1 (heq ▸ h)
      obtain ⟨ha, hc, ho, hh⟩ := run_quiet hr hpost
      rw [step_framed he hstep] at ha hc ho hh
      cases name with
      | keyboardWillShow =>
        -- the completion of this show has run
        refine ⟨hh.2 (Or.inr ?_), ha, hc⟩
        simp only [keyboardWillChange, hout]
        omega
      | keyboardWillHide =>
        have h0 := hcalm pre e post height t heq he hpost ht
        refine ⟨?_, ha, hc⟩
        simpa [keyboardWillChange, h0] using hh

/-- A show and its completion, then a hide: the form matches. -/
theorem layout_matches_calm : (⟨false, 1, 0, 0⟩ : Form Int).Matches (lastNotification
    [.notification ⟨.keyboardWillShow, some 300⟩, .completion true, .notification ⟨.keyboardWillHide, some 300⟩]) := by
  have hrun : run Form.step Form.initial [.notification ⟨.keyboardWillShow, some 300⟩, .completion true,
      .notification ⟨.keyboardWillHide, some 300⟩] = some (⟨false, 1, 0, 0⟩ : Form Int) := rfl
  refine (layout_matches_iff hrun rfl).2 ?_
  intro pre e post height before heq he hpost hbefore
  match pre, heq with
  | [], heq => cases heq; cases he
  | [_], heq => cases heq; cases he
  | [_, _], heq => cases heq; cases hbefore; rfl
  | _ :: _ :: _ :: pre, heq => simp at heq

/-- A hide that is handled before the completion of the show leaves the picture hidden. -/
theorem layout_hide_before_completion :
    ∃ form : Form Int, run Form.step Form.initial [.notification ⟨.keyboardWillShow, some 300⟩,
        .notification ⟨.keyboardWillHide, some 300⟩, .completion true] = some form ∧ form.outstanding = 0 ∧
      ¬form.Matches (lastNotification [.notification ⟨.keyboardWillShow, some 300⟩,
        .notification ⟨.keyboardWillHide, some 300⟩, .completion true]) :=
  ⟨⟨true, 1, 0, 0⟩, rfl, rfl, fun h => by cases h.1⟩

end RegisterViewController

namespace LoginViewController

/-- The login screen only moves its bottom constraint. -/
def keyboardWillChange (constant : F) (notification : Notification F) : F :=
  match notification.height with
  | none => constant
  | some height =>
    match notification.name with
    | .keyboardWillShow => -height
    | .keyboardWillHide => 0

omit [One F] in
/-- **The login screen** matches the last notification that carried a frame after every sequence of them. -/
theorem login_layout_matches (ns : List (Notification F)) :
    ns.foldl keyboardWillChange 0 =
      match ns.reverse.findSome? fun n => n.height.map fun h => (n.name, h) with
      | some (.keyboardWillShow, height) => -height
      | some (.keyboardWillHide, _) | none => 0 := by
  induction ns using List.reverseRecOn with
  | nil => rfl
  | append_singleton ns n ih =>
    obtain ⟨name, height⟩ := n
    rw [List.foldl_append, List.reverse_append]
    cases height with
    | none => simpa [keyboardWillChange] using ih
    | some x => cases name <;> simp [keyboardWillChange]

end LoginViewController

end ChatApp
