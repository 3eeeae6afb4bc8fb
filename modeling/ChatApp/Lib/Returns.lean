import Mathlib.Data.List.Infix

/-!
# Calls that return

A call that can fail, and what holds of its result: `Returns x P` says that `x` does not fail and that `P` holds of what
it returns. The rules follow the way calls are put together: one after the other (`Returns.bind`), under a condition
(`Returns.ite`), and in a loop, with an invariant over what the loop has gone through (`returns_foldlM`) or with what
each round does (`Rounds`, `returns_rounds`).
-/

namespace Lib

variable {ε α β σ : Type}

/-- The call returns, and `P` holds of the result. -/
def Returns (x : Except ε α) (P : α → Prop) : Prop := ∃ a, x = .ok a ∧ P a

namespace Returns

variable {x : Except ε α} {P Q : α → Prop}

theorem ok {a : α} (h : P a) : Returns (ε := ε) (.ok a) P := ⟨a, rfl, h⟩

theorem pure {a : α} (h : P a) : Returns (ε := ε) (Pure.pure a) P := ⟨a, rfl, h⟩

theorem mono (h : Returns x P) (hpq : ∀ a, P a → Q a) : Returns x Q := by
  obtain ⟨a, hx, hp⟩ := h
  exact ⟨a, hx, hpq a hp⟩

theorem bind {f : α → Except ε β} {R : β → Prop} (h : Returns x P) (hf : ∀ a, P a → Returns (f a) R) :
    Returns (x >>= f) R := by
  obtain ⟨a, rfl, hp⟩ := h
  exact hf a hp

theorem ite {c : Prop} [Decidable c] {y : Except ε α} (hx : c → Returns x P) (hy : ¬c → Returns y P) :
    Returns (if c then x else y) P := by
  split
  · exact hx ‹_›
  · exact hy ‹_›

end Returns

/-- A call that goes on after another one has returned. -/
theorem bind_eq_ok {x : Except ε α} {f : α → Except ε β} {b : β} (h : x >>= f = .ok b) :
    ∃ a, x = .ok a ∧ f a = .ok b := by
  cases x with
  | error e => cases h
  | ok a => exact ⟨a, rfl, h⟩

/-- **Loops**: an invariant of what the loop has gone through and of its state. -/
theorem returns_foldlM {f : σ → β → Except ε σ} {I : List β → σ → Prop} {bs : List β} {s : σ} (h : I [] s)
    (hstep : ∀ pre b s, pre ++ [b] <+: bs → I pre s → Returns (f s b) (I (pre ++ [b]))) :
    Returns (bs.foldlM f s) (I bs) := by
  suffices hall : ∀ post pre s, pre ++ post = bs → I pre s → Returns (post.foldlM f s) (I bs) by
    exact hall bs [] s rfl h
  intro post
  induction post with
  | nil =>
    intro pre s hbs hi
    rw [List.append_nil] at hbs
    exact Returns.pure (hbs ▸ hi)
  | cons b post ih =>
    intro pre s hbs hi
    rw [List.foldlM_cons]
    apply (hstep pre b s ⟨post, by rw [← hbs, List.append_assoc]; rfl⟩ hi).bind
    intro s' hi'
    exact ih (pre ++ [b]) s' (by rw [← hbs, List.append_assoc]; rfl) hi'

theorem returns_mapM {f : α → Except ε β} {Q : α → β → Prop} {as : List α} (h : ∀ a ∈ as, Returns (f a) (Q a)) :
    Returns (as.mapM f) (List.Forall₂ Q as) := by
  induction as with
  | nil => exact .pure .nil
  | cons a as ih =>
    obtain ⟨ha, has⟩ := List.forall_mem_cons.1 h
    rw [List.mapM_cons]
    apply ha.bind
    intro b hb
    apply (ih has).bind
    intro bs hbs
    exact .pure (.cons hb hbs)

theorem returns_mapM_mem {f : α → Except ε β} {P : β → Prop} {as : List α} (h : ∀ a ∈ as, Returns (f a) P) :
    Returns (as.mapM f) fun bs => ∀ b ∈ bs, P b := by
  refine (returns_mapM (Q := fun _ => P) h).mono fun bs hbs => ?_
  induction hbs with
  | nil => exact fun b hb => absurd hb List.not_mem_nil
  | cons hb hbs ih => exact List.forall_mem_cons.2 ⟨hb, ih fun a ha => h a (List.mem_cons_of_mem _ ha)⟩

/-- Loops over what another list was mapped to. -/
theorem returns_foldlM_forall₂ {f : σ → β → Except ε σ} {Q : α → β → Prop} {I : List α → σ → Prop} {as : List α}
    {bs : List β} (hq : List.Forall₂ Q as bs) {s : σ} (h : I [] s)
    (hstep : ∀ pre a post b s, pre ++ a :: post = as → Q a b → I pre s → Returns (f s b) (I (pre ++ [a]))) :
    Returns (bs.foldlM f s) (I as) := by
  suffices hall : ∀ pre s, (∃ as', pre ++ as' = as ∧ List.Forall₂ Q as' bs) → I pre s →
      Returns (bs.foldlM f s) (I as) by
    exact hall [] s ⟨as, rfl, hq⟩ h
  clear hq
  induction bs with
  | nil =>
    rintro pre s ⟨as', rfl, hq⟩ hi
    cases hq
    rw [List.append_nil]
    exact .pure hi
  | cons b bs ih =>
    rintro pre s ⟨as', rfl, hq⟩ hi
    cases hq with
    | @cons a _ as' _ hab hq =>
      rw [List.foldlM_cons]
      apply (hstep pre a as' b s rfl hab hi).bind
      intro s' hi'
      exact ih (pre ++ [a]) s' ⟨as', by simp, hq⟩ hi'

/-- The rounds of a loop: `R b s s'` holds of each, and `I` of every state after one. -/
inductive Rounds (I : σ → Prop) (R : β → σ → σ → Prop) : List β → σ → σ → Prop
  | nil (s : σ) : Rounds I R [] s s
  | cons {b : β} {bs : List β} {s s' s'' : σ} (h : R b s s') (hi : I s') (hs : Rounds I R bs s' s'') :
    Rounds I R (b :: bs) s s''

/-- **Loops, round by round.** -/
theorem returns_rounds {f : σ → β → Except ε σ} {I : σ → Prop} {R : β → σ → σ → Prop} {bs : List β} {s : σ}
    (h : I s) (hf : ∀ b ∈ bs, ∀ s, I s → Returns (f s b) fun s' => I s' ∧ R b s s') :
    Returns (bs.foldlM f s) fun s' => I s' ∧ Rounds I R bs s s' := by
  induction bs generalizing s with
  | nil => exact .pure ⟨h, .nil s⟩
  | cons b bs ih =>
    obtain ⟨hb, hbs⟩ := List.forall_mem_cons.1 hf
    rw [List.foldlM_cons]
    apply (hb s h).bind
    rintro s' ⟨hi, hr⟩
    exact (ih hi hbs).mono fun s'' hs => ⟨hs.1, .cons hr hi hs.2⟩

/-- Two passes over a list, each over some of its elements, are one loop. -/
theorem foldlM_passes {f : σ → β → Except ε σ} (p q : β → Bool) (bs : List β) (s : σ) :
    (bs.foldlM (fun s b => if p b then f s b else pure s) s >>=
      bs.foldlM fun s b => if q b then f s b else pure s) = (bs.filter p ++ bs.filter q).foldlM f s := by
  rw [List.foldlM_append, List.foldlM_filter]
  simp only [List.foldlM_filter]

end Lib
