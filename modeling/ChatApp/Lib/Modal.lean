import Mathlib.Data.List.Infix
import Mathlib.Data.List.Nodup

/-!
# Chains of modal screens

The screens presented over a root form a chain, listed from the root upwards: the root presents the first one, every
screen presents the next, and the last one is on top. A screen can present another only when it is on top, and
dismissing through a screen removes what is above it, or the screen itself when there is nothing above.

- `dismiss_isPrefix`, `present_nodup`: both operations keep the screens of a chain distinct;
- `mem_dismiss_self`: dismissing through a screen removes it iff it was on top.
-/

namespace Lib.Modal

variable {α : Type} [DecidableEq α]

/-- `x` is presented through `p`, `none` standing for the root; nothing happens unless `p` is on top. -/
def present (p : Option α) (x : α) (st : List α) : List α := if st.getLast? = p then st ++ [x] else st

/-- Dismissal through `x`; nothing happens when `x` is not in the chain. -/
def dismiss (x : α) : List α → List α
  | [] => []
  | [y] => if y = x then [] else [y]
  | y :: z :: st => if y = x then [y] else y :: dismiss x (z :: st)

theorem dismiss_isPrefix (x : α) : ∀ st : List α, dismiss x st <+: st
  | [] => List.prefix_rfl
  | [y] => by
    unfold dismiss
    split
    · exact List.nil_prefix
    · exact List.prefix_rfl
  | y :: z :: st => by
    unfold dismiss
    split
    · exact List.cons_prefix_cons.2 ⟨rfl, List.nil_prefix⟩
    · exact List.cons_prefix_cons.2 ⟨rfl, dismiss_isPrefix x (z :: st)⟩

/-- What is at the bottom stays there, unless it is the screen that dismisses. -/
theorem head?_dismiss {x y : α} {st : List α} (h : st.head? = some y) (hne : y ≠ x) :
    (dismiss x st).head? = some y := by
  match st, h with
  | [_], rfl => simp [dismiss, hne]
  | _ :: _ :: _, rfl => simp [dismiss, hne]

theorem head?_present {p : Option α} {x y : α} {st : List α} (h : st.head? = some y) :
    (present p x st).head? = some y := by
  unfold present
  split <;> simp [h]

theorem dismiss_nodup {x : α} {st : List α} (h : st.Nodup) : (dismiss x st).Nodup :=
  h.sublist (dismiss_isPrefix x st).sublist

theorem mem_of_mem_dismiss {x y : α} {st : List α} (h : y ∈ dismiss x st) : y ∈ st :=
  (dismiss_isPrefix x st).subset h

theorem mem_present {p : Option α} {x y : α} {st : List α} (h : y ∈ present p x st) : y ∈ st ∨ y = x := by
  unfold present at h
  split at h
  · simpa using h
  · exact Or.inl h

theorem present_nodup {p : Option α} {x : α} {st : List α} (h : st.Nodup) (hx : x ∉ st) : (present p x st).Nodup := by
  unfold present
  split
  · simpa [List.nodup_append, h] using fun a ha => (ne_of_mem_of_not_mem ha hx)
  · exact h

/-- **Dismissal through a screen of the chain** removes that screen iff it was on top. -/
theorem mem_dismiss_self {x : α} : ∀ {st : List α}, st.Nodup → x ∈ st → (x ∈ dismiss x st ↔ st.getLast? ≠ some x)
  | [], _, h => absurd h (by simp)
  | [y], _, h => by
    obtain rfl : x = y := by simpa using h
    simp [dismiss]
  | y :: z :: st, hnd, h => by
    rw [List.nodup_cons] at hnd
    rw [List.getLast?_cons_cons]
    by_cases hy : y = x
    · subst hy
      have hlast : (z :: st).getLast? ≠ some y := fun hl => hnd.1 (List.mem_of_getLast? hl)
      simp [dismiss, hlast]
    · have hx : x ∈ z :: st := by
        rcases List.mem_cons.1 h with rfl | hx
        · exact absurd rfl hy
        · exact hx
      rw [dismiss, if_neg hy, List.mem_cons, mem_dismiss_self hnd.2 hx]
      exact ⟨fun hor => hor.resolve_left (Ne.symm hy), Or.inr⟩

end Lib.Modal
