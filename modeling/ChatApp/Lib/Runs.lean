import Mathlib.Data.List.Induction

/-!
# Runs of a partial step function

A system is a step function `step : σ → ε → Option σ`; `step s e = none` when the event `e` cannot happen in `s`.

- `run step s es`: the state after the events `es`, if each of them can happen in turn;
- `Along step P s es`: every step of the run meets `P`, a condition on the state before the step and on its event;
- the invariant rules: `run_inv` (a property every step keeps), `run_inv_along` (a property kept by the steps that
  meet `P`) and `run_hist` (a property of the state together with the events that led to it);
- `run_iff_along`: a property that holds after a run iff all its steps meet `P`;
- `along_of_inv`: an invariant under which the steps meet `P`;
- `Simulates`: every step is a step of another system; runs and conditions on their steps carry over (`run_sim`,
  `along_sim`).
-/

namespace Lib.Runs

variable {σ ε : Type} {step : σ → ε → Option σ}

/-- The state after the events `es`. -/
def run (step : σ → ε → Option σ) : σ → List ε → Option σ
  | s, [] => some s
  | s, e :: es => (step s e).bind fun s' => run step s' es

/-- Every step of the run of `es` from `s` meets `P`. -/
def Along (step : σ → ε → Option σ) (P : σ → ε → Prop) : σ → List ε → Prop
  | _, [] => True
  | s, e :: es => P s e ∧ ∀ s', step s e = some s' → Along step P s' es

@[simp] theorem run_nil (s : σ) : run step s [] = some s := rfl

theorem run_cons {s s' : σ} {e : ε} {es : List ε} :
    run step s (e :: es) = some s' ↔ ∃ t, step s e = some t ∧ run step t es = some s' := by
  simp only [run, Option.bind_eq_some_iff]

theorem run_append {s s' : σ} {es fs : List ε} :
    run step s (es ++ fs) = some s' ↔ ∃ t, run step s es = some t ∧ run step t fs = some s' := by
  induction es generalizing s with
  | nil => simp
  | cons e es ih =>
    simp only [List.cons_append, run_cons, ih]
    constructor
    · rintro ⟨t, ht, u, hu, hs⟩; exact ⟨u, ⟨t, ht, hu⟩, hs⟩
    · rintro ⟨u, ⟨t, ht, hu⟩, hs⟩; exact ⟨t, ht, u, hu, hs⟩

theorem run_snoc {s s' : σ} {e : ε} {es : List ε} :
    run step s (es ++ [e]) = some s' ↔ ∃ t, run step s es = some t ∧ step t e = some s' := by
  simp [run_append, run_cons]

/-- A run that is cut at one of its events. -/
theorem run_split {s s' : σ} {e : ε} {es fs : List ε} : run step s (es ++ e :: fs) = some s' ↔
    ∃ t t', run step s es = some t ∧ step t e = some t' ∧ run step t' fs = some s' := by
  simp only [run_append, run_cons]
  constructor
  · rintro ⟨t, ht, t', he, hf⟩; exact ⟨t, t', ht, he, hf⟩
  · rintro ⟨t, t', ht, he, hf⟩; exact ⟨t, ht, t', he, hf⟩

/-! ## Invariants -/

/-- What every step that meets `P` keeps holds after a run all of whose steps meet `P`. -/
theorem run_inv_along {I : σ → Prop} {P : σ → ε → Prop}
    (hstep : ∀ s e s', I s → P s e → step s e = some s' → I s') {es : List ε} {s s' : σ}
    (h : run step s es = some s') (ha : Along step P s es) (hi : I s) : I s' := by
  induction es generalizing s with
  | nil => cases h; exact hi
  | cons e es ih =>
    obtain ⟨t, ht, hr⟩ := run_cons.1 h
    have hit : I t := hstep s e t hi ha.1 ht
    exact ih hr (ha.2 t ht) hit

theorem along_true (es : List ε) (s : σ) : Along step (fun _ _ => True) s es := by
  induction es generalizing s with
  | nil => trivial
  | cons e es ih => exact ⟨trivial, fun s' _ => ih s'⟩

/-- What every step keeps holds after every run. -/
theorem run_inv {I : σ → Prop} (hstep : ∀ s e s', I s → step s e = some s' → I s') {es : List ε} {s s' : σ}
    (h : run step s es = some s') (hi : I s) : I s' :=
  run_inv_along (P := fun _ _ => True) (fun s e s' hi _ hs => hstep s e s' hi hs) h (along_true es s) hi

/-- The invariant rule for statements about a state and the events that led to it. -/
theorem run_hist {s : σ} {R : List ε → σ → Prop} (h0 : R [] s)
    (hstep : ∀ es e t t', run step s es = some t → R es t → step t e = some t' → R (es ++ [e]) t')
    {es : List ε} {s' : σ} (h : run step s es = some s') : R es s' := by
  induction es using List.reverseRecOn generalizing s' with
  | nil => cases h; exact h0
  | append_singleton es e ih =>
    obtain ⟨t, ht, he⟩ := run_snoc.1 h
    exact hstep es e t s' ht (ih ht) he

/-! ## Conditions on the steps of a run -/

/-- The steps of a run that is one event longer. -/
theorem along_snoc {P : σ → ε → Prop} {e : ε} {es : List ε} {s t : σ} (h : run step s es = some t) :
    Along step P s (es ++ [e]) ↔ Along step P s es ∧ P t e := by
  induction es generalizing s with
  | nil => cases h; simp [Along]
  | cons a es ih =>
    obtain ⟨u, hu, hr⟩ := run_cons.1 h
    have hall : ∀ fs, (∀ v, step s a = some v → Along step P v fs) ↔ Along step P u fs := by simp [hu]
    rw [List.cons_append, Along, Along, hall, hall, ih hr, and_assoc]

/-- **The exact rule.** When a step leads from `I` to `I` iff it meets `P`, a run does iff all its steps meet `P`. -/
theorem run_iff_along {I : σ → Prop} {P : σ → ε → Prop}
    (hstep : ∀ s e s', step s e = some s' → (I s' ↔ I s ∧ P s e)) {es : List ε} {s s' : σ}
    (h : run step s es = some s') : I s' ↔ I s ∧ Along step P s es := by
  induction es generalizing s with
  | nil => cases h; simp [Along]
  | cons e es ih =>
    obtain ⟨t, ht, hr⟩ := run_cons.1 h
    have hall : (∀ u, step s e = some u → Along step P u es) ↔ Along step P t es := by simp [ht]
    rw [ih hr, hstep s e t ht, Along, hall, and_assoc]

/-- An invariant that the events `Q` keep, and under which they meet `P`. -/
theorem along_of_inv {I : σ → Prop} {Q : ε → Prop} {P : σ → ε → Prop}
    (hstep : ∀ s e s', I s → Q e → step s e = some s' → I s' ∧ P s e) {es : List ε} {s s' : σ}
    (h : run step s es = some s') (hq : ∀ e ∈ es, Q e) (hi : I s) : Along step P s es := by
  induction es generalizing s with
  | nil => trivial
  | cons e es ih =>
    obtain ⟨t, ht, hr⟩ := run_cons.1 h
    obtain ⟨hit, hp⟩ := hstep s e t hi (hq e List.mem_cons_self) ht
    have hrest : ∀ f ∈ es, Q f := fun f hf => hq f (List.mem_cons_of_mem _ hf)
    refine ⟨hp, fun u hu => ?_⟩
    cases ht.symm.trans hu
    exact ih hr hrest hit

/-! ## Simulation -/

section Simulation

variable {τ δ : Type} {step' : τ → δ → Option τ} {f : σ → τ} {g : ε → Option δ}

/-- Every step is a step of another system, under `f` and `g`. -/
def Simulates (step : σ → ε → Option σ) (step' : τ → δ → Option τ) (f : σ → τ) (g : ε → Option δ) : Prop :=
  ∀ s e s', step s e = some s' → ∃ d, g e = some d ∧ step' (f s) d = some (f s')

theorem run_sim (hsim : Simulates step step' f g) {es : List ε} {s s' : σ} (h : run step s es = some s') :
    run step' (f s) (es.filterMap g) = some (f s') := by
  induction es generalizing s with
  | nil => cases h; rfl
  | cons e es ih =>
    obtain ⟨t, ht, hr⟩ := run_cons.1 h
    obtain ⟨d, hd, hs⟩ := hsim s e t ht
    rw [List.filterMap_cons_some hd]
    exact run_cons.2 ⟨f t, hs, ih hr⟩

/-- A condition on the steps of the simulated run. -/
theorem along_sim (hsim : Simulates step step' f g) {P : τ → δ → Prop} {es : List ε} {s s' : σ}
    (h : run step s es = some s') :
    Along step' P (f s) (es.filterMap g) ↔ Along step (fun s e => ∀ d, g e = some d → P (f s) d) s es := by
  induction es generalizing s with
  | nil => simp [Along]
  | cons e es ih =>
    obtain ⟨t, ht, hr⟩ := run_cons.1 h
    obtain ⟨d, hd, hs⟩ := hsim s e t ht
    rw [List.filterMap_cons_some hd, Along, Along]
    simp only [hs, hd, ht, Option.some.injEq, forall_eq']
    rw [ih hr]

end Simulation

end Lib.Runs
