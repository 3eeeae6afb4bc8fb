import ChatApp.Firebase.LLRB.Balance

/-!
# Removing

`removeMin` and `remove` carry a red node down to the entry they remove. `remove` may be called where there is no red
node to carry: on the root, whose colour has no say (`Recolored.remove`), and once more on the right subtree after the
least entry of it has taken the place of the removed one, where the key is below all others (`remove_below`).

- `prepareLeft_spec`, `prepareRight_spec`: what the node looks like before going down;
- `removeMin_spec`, `remove_spec`: the entries and the balance below the root;
- `remove_root`: the same for a whole tree.
-/

namespace ChatApp

open Lib (Assoc.removeKey Assoc.Sorted)

namespace LLRBNode

variable {κ α : Type}

section Balance

variable {k : κ} {v : α} {l r t : LLRBNode κ α} {c cl cr : Color} {m n : Nat}

/-! ### Preparing to remove -/

/-- The node or its left child is red. -/
def Ready (t : LLRBNode κ α) : Prop := t.isRed = true ∨ t.left.isRed = true

theorem Ready.ne_empty (h : Ready t) : t ≠ .empty := by
  rintro rfl
  rcases h with h | h <;> cases h

/-- A black node whose only red child is the right one. -/
inductive RightHeavy : LLRBNode κ α → Nat → Prop
  | mk {k : κ} {v : α} {l r : LLRBNode κ α} {n : Nat} (hl : Balanced l .black n) (hr : Balanced r .red n) :
    RightHeavy (.node k v .black l r) (n + 1)

/-- A node that gave its colour down to both children. -/
inductive Flipped (c : Color) : LLRBNode κ α → Nat → Prop
  | mk {k : κ} {v : α} {l r : LLRBNode κ α} {n : Nat} (hl : Balanced l .red n) (hr : Balanced r .red n) :
    Flipped c (.node k v c.flip l r) (n + 1 + c.weight)

theorem Flipped.ready_left (h : Flipped c t n) : Ready t.left := by
  cases h with
  | mk hl hr => exact Or.inl (by simp [hl.isRed_eq])

/-- A balanced tree without black nodes on its paths, black itself. -/
theorem Balanced.eq_empty (h : Balanced t .black 0) : t = .empty := by
  cases h
  rfl

theorem Balanced.eq_black (h : Balanced t c n) (hred : t.isRed = false) : c = .black := by
  rw [h.isRed_eq] at hred
  cases c <;> simp_all

theorem isEmpty_iff : t.isEmpty = true ↔ t = .empty := by
  cases t <;> simp

/-- The left child takes the colour of the node, or an entry of its sibling. -/
theorem moveRedLeft_spec (hl : Balanced l .black m) (hr : Balanced r .black m) (hne : l ≠ .empty)
    (hll : l.left.isRed = false) :
    (Balanced (moveRedLeft (.node k v c l r)) c (m + c.weight) ∧ Ready (moveRedLeft (.node k v c l r)).left) ∨
      Flipped c (moveRedLeft (.node k v c l r)) (m + c.weight) := by
  cases hl with
  | empty => exact absurd rfl hne
  | @black lk lv ll lr cll m hl1 hl2 =>
    cases hl1.eq_black hll
    cases hr with
    | @black rk rv rl rr crl _ hr1 hr2 =>
      cases crl with
      | black =>
        have hmove : moveRedLeft (.node k v c (.node lk lv .black ll lr) (.node rk rv .black rl rr)) =
            .node k v c.flip (.node lk lv .red ll lr) (.node rk rv .red rl rr) := by
          simp [moveRedLeft, colorFlip, flipColor, hr1.isRed_eq]
        rw [hmove]
        exact Or.inr (.mk (.red hl1 hl2) (.red hr1 hr2))
      | red =>
        cases hr1 with
        | @red xk xv xl xr _ hx1 hx2 =>
          have hmove : moveRedLeft (.node k v c (.node lk lv .black ll lr)
              (.node rk rv .black (.node xk xv .red xl xr) rr)) =
              .node xk xv c (.node k v .black (.node lk lv .red ll lr) xl) (.node rk rv .black xr rr) := by
            simp [moveRedLeft, colorFlip, flipColor, rotateRight, rotateLeft, withRight]
          rw [hmove]
          exact Or.inl ⟨Balanced.node (.black (.red hl1 hl2) hx1) (.black hx2 hr2) fun _ => rfl, Or.inr rfl⟩

theorem prepareLeft_spec (h : Balanced t c n) :
    (Balanced t.prepareLeft c n ∧ ((t.left = .empty ∧ t.prepareLeft = t) ∨ Ready t.prepareLeft.left)) ∨
    (t.left.isRed = false ∧ Flipped c t.prepareLeft n) := by
  by_cases hmove : ¬t.left.isEmpty ∧ ¬t.left.isRed ∧ ¬t.left.left.isRed
  · rw [prepareLeft, if_pos hmove]
    obtain ⟨hne, hred, hll⟩ := hmove
    rw [isEmpty_iff] at hne
    rw [Bool.not_eq_true] at hred hll
    cases h with
    | empty => exact absurd rfl hne
    | red hl hr => exact (moveRedLeft_spec hl hr hne hll).imp (fun h => ⟨h.1, Or.inr h.2⟩) fun h => ⟨hred, h⟩
    | black hl hr =>
      cases hl.eq_black hred
      exact (moveRedLeft_spec hl hr hne hll).imp (fun h => ⟨h.1, Or.inr h.2⟩) fun h => ⟨hred, h⟩
  · rw [prepareLeft, if_neg hmove]
    refine Or.inl ⟨h, ?_⟩
    by_cases hne : t.left.isEmpty
    · exact Or.inl ⟨isEmpty_iff.1 hne, rfl⟩
    · by_cases hred : t.left.isRed
      · exact Or.inr (Or.inl hred)
      · exact Or.inr (Or.inr (not_not.1 fun hll => hmove ⟨hne, hred, hll⟩))

/-- A balanced left child over a right child that leans to the right. -/
inductive Shifted (c : Color) : LLRBNode κ α → Nat → Prop
  | mk {k : κ} {v : α} {l r : LLRBNode κ α} {n : Nat} (hl : Balanced l .black n) (hr : RightHeavy r n) :
    Shifted c (.node k v c l r) (n + c.weight)

/-- The right child takes the colour of the node, or an entry of its sibling. -/
theorem moveRedRight_spec (hl : Balanced l .black m) (hr : Balanced r .black m) (hne : r ≠ .empty)
    (hrl : r.left.isRed = false) :
    (Shifted c (moveRedRight (.node k v c l r)) (m + c.weight) ∧
      (moveRedRight (.node k v c l r)).right.key? = some k) ∨
    (Flipped c (moveRedRight (.node k v c l r)) (m + c.weight) ∧ (moveRedRight (.node k v c l r)).key? = some k) := by
  cases hr with
  | empty => exact absurd rfl hne
  | @black rk rv rl rr crl m hr1 hr2 =>
    cases hr1.eq_black hrl
    cases hl with
    | @black lk lv ll lr cll _ hl1 hl2 =>
      cases cll with
      | black =>
        have hmove : moveRedRight (.node k v c (.node lk lv .black ll lr) (.node rk rv .black rl rr)) =
            .node k v c.flip (.node lk lv .red ll lr) (.node rk rv .red rl rr) := by
          simp [moveRedRight, colorFlip, flipColor, hl1.isRed_eq]
        rw [hmove]
        exact Or.inr ⟨.mk (.red hl1 hl2) (.red hr1 hr2), rfl⟩
      | red =>
        cases hl1 with
        | @red xk xv xl xr _ hx1 hx2 =>
          have hmove : moveRedRight (.node k v c (.node lk lv .black (.node xk xv .red xl xr) lr)
              (.node rk rv .black rl rr)) =
              .node lk lv c (.node xk xv .black xl xr) (.node k v .black lr (.node rk rv .red rl rr)) := by
            simp [moveRedRight, colorFlip, flipColor, rotateRight]
          rw [hmove]
          exact Or.inl ⟨.mk (.black hx1 hx2) (.mk hl2 (.red hr1 hr2)), rfl⟩

theorem prepareRight_of_rightHeavy (h : RightHeavy t n) : t.prepareRight = t := by
  cases h with
  | mk hl hr => simp [prepareRight, hl.isRed_eq, hr.isRed_eq]

/-- What going right can meet. -/
theorem prepareRight_spec (h : Balanced t c n) :
    (t.left.isRed = false ∧ t.prepareRight = t ∧ (t.right = .empty ∨ Ready t.right)) ∨
    (RightHeavy t.prepareRight n ∧ t.prepareRight.right.key? = t.key? ∧ c = .black) ∨
    (Shifted c t.prepareRight n ∧ t.prepareRight.right.key? = t.key?) ∨
    (t.left.isRed = false ∧ Flipped c t.prepareRight n ∧ t.prepareRight.key? = t.key?) := by
  by_cases hred : t.left.isRed
  · right; left
    cases h with
    | empty => cases hred
    | red hl hr => simp [hl.isRed_eq] at hred
    | @black k v l r cl _ hl hr =>
      cases hl with
      | empty => cases hred
      | black hl1 hl2 => cases hred
      | @red lk lv ll lr _ hl1 hl2 =>
        have hprep : prepareRight (.node k v .black (.node lk lv .red ll lr) r) =
            .node lk lv .black ll (.node k v .red lr r) := by
          simp [prepareRight, rotateRight]
        rw [hprep]
        exact ⟨.mk hl1 (.red hl2 hr), rfl, rfl⟩
  · rw [Bool.not_eq_true] at hred
    by_cases hmove : ¬t.right.isEmpty ∧ ¬t.right.isRed ∧ ¬t.right.left.isRed
    · right; right
      have hprep : t.prepareRight = t.moveRedRight := by simp [prepareRight, hred, hmove]
      rw [hprep]
      obtain ⟨hne, -, hrl⟩ := hmove
      rw [isEmpty_iff] at hne
      rw [Bool.not_eq_true] at hrl
      cases h with
      | empty => exact absurd rfl hne
      | red hl hr => exact (moveRedRight_spec hl hr hne hrl).imp_right fun h => ⟨hred, h⟩
      | black hl hr =>
        cases hl.eq_black hred
        exact (moveRedRight_spec hl hr hne hrl).imp_right fun h => ⟨hred, h⟩
    · left
      have hprep : t.prepareRight = t := by simp only [prepareRight, hred, Bool.false_eq_true, if_false, if_neg hmove]
      refine ⟨hred, hprep, ?_⟩
      by_cases hne : t.right.isEmpty
      · exact Or.inl (isEmpty_iff.1 hne)
      · by_cases hrr : t.right.isRed
        · exact Or.inr (Or.inl hrr)
        · exact Or.inr (Or.inr (not_not.1 fun hrl => hmove ⟨hne, hrr, hrl⟩))

/-! ### Removing on the left -/

theorem exists_mem_of_key (h : t.key? = some k) : ∃ v, (k, v) ∈ t.toList := by
  cases t with
  | empty => cases h
  | node k' v c l r =>
    cases h
    exact ⟨v, by simp⟩

theorem Ready.exists_key (h : Ready t) : ∃ j, t.key? = some j := by
  cases t with
  | empty => exact absurd rfl h.ne_empty
  | node j v c l r => exact ⟨j, rfl⟩

theorem Ready.eq_red (h : Ready t) (hb : Balanced t c n) (hl : t.left.isRed = false) : c = .red := by
  rcases h with h | h
  · rw [hb.isRed_eq] at h
    exact of_decide_eq_true h
  · rw [hl] at h
    cases h


/-- What removing from a balanced tree gives: a balanced tree with the same number of black nodes on its paths. -/
def Removed (c : Color) (n : Nat) (t : LLRBNode κ α) : Prop := ∃ c', Balanced t c' n ∧ (c = .black → c' = .black)

theorem Balanced.removed (h : Balanced t c n) : Removed c n t := ⟨c, h, id⟩

/-- A black node over what is left of its children, one of which was black. -/
theorem removed_black (hl : Removed cl m l) (hr : Removed cr m r) (hc : cl = .black ∨ cr = .black) :
    Balanced (fixUp (.node k v .black l r)) .black (m + 1) := by
  obtain ⟨cl', hl, hcl⟩ := hl
  obtain ⟨cr', hr, hcr⟩ := hr
  obtain ⟨c', h, hblack⟩ := fixUp_black (k := k) (v := v) hl hr
  have hnot : ¬(cl' = .red ∧ cr' = .red) := by
    rintro ⟨rfl, rfl⟩
    rcases hc with hc | hc
    · cases hcl hc
    · cases hcr hc
  cases hblack hnot
  exact h

theorem removed_left (h : Balanced t c n) (hready : Ready t) {l' : LLRBNode κ α}
    (hl' : ∀ cl m, Balanced t.prepareLeft.left cl m → Removed cl m l') :
    Removed c n (fixUp (t.prepareLeft.withLeft l')) := by
  rcases prepareLeft_spec h with ⟨hb, -⟩ | ⟨hred, hf⟩
  · generalize t.prepareLeft = p at hb hl'
    cases hb with
    | empty => exact Balanced.empty.removed
    | red hl hr =>
      obtain ⟨c', hb, hblack⟩ := hl' _ _ hl
      cases hblack rfl
      rw [withLeft, fixUp_of_balanced (.red hb hr)]
      exact (Balanced.red hb hr).removed
    | black hl hr =>
      obtain ⟨c', hb, -⟩ := hl' _ _ hl
      rw [withLeft, fixUp_of_balanced (.black hb hr)]
      exact (Balanced.black hb hr).removed
  · -- the node gave its colour away, so it was red
    have hc : c = .red := by
      rcases hready with hr | hl
      · rw [h.isRed_eq] at hr
        exact of_decide_eq_true hr
      · rw [hred] at hl
        cases hl
    subst hc
    generalize t.prepareLeft = p at hf hl'
    cases hf with
    | mk hl hr =>
      obtain ⟨c', hb, -⟩ := hl' _ _ hl
      obtain ⟨c'', hres, -⟩ := fixUp_black hb hr
      exact ⟨c'', hres, fun h => by cases h⟩

/-- When nothing is removed on the left, colour and height stay. -/
theorem kept_left (h : Balanced t c n) {l' : LLRBNode κ α}
    (hl' : ∀ cl m, Balanced t.prepareLeft.left cl m → Balanced l' cl m) :
    Balanced (fixUp (t.prepareLeft.withLeft l')) c n := by
  rcases prepareLeft_spec h with ⟨hb, -⟩ | ⟨-, hf⟩
  · generalize t.prepareLeft = p at hb hl'
    cases hb with
    | empty => exact .empty
    | red hl hr =>
      rw [withLeft, fixUp_of_balanced (.red (hl' _ _ hl) hr)]
      exact .red (hl' _ _ hl) hr
    | black hl hr =>
      rw [withLeft, fixUp_of_balanced (.black (hl' _ _ hl) hr)]
      exact .black (hl' _ _ hl) hr
  · generalize t.prepareLeft = p at hf hl'
    cases hf with
    | mk hl hr => exact fixUp_reds (hl' _ _ hl) hr

theorem exists_balanced_left (h : Balanced t c n) : ∃ cl m, Balanced t.prepareLeft.left cl m := by
  rcases prepareLeft_spec h with ⟨hb, -⟩ | ⟨-, hf⟩
  · generalize t.prepareLeft = p at hb
    cases hb with
    | empty => exact ⟨_, _, .empty⟩
    | red hl hr => exact ⟨_, _, hl⟩
    | black hl hr => exact ⟨_, _, hl⟩
  · generalize t.prepareLeft = p at hf
    cases hf with
    | mk hl hr => exact ⟨_, _, hl⟩

theorem left_empty_or_ready (h : Balanced t c n) : t.prepareLeft.left = .empty ∨ Ready t.prepareLeft.left := by
  rcases prepareLeft_spec h with ⟨-, ⟨he, hp⟩ | hr⟩ | ⟨-, hf⟩
  · exact Or.inl (by rw [hp, he])
  · exact Or.inr hr
  · exact Or.inr hf.ready_left

theorem key_moveRedLeft (t : LLRBNode κ α) :
    t.moveRedLeft.key? = t.key? ∨ t.moveRedLeft.left.key? = t.key? := by
  unfold moveRedLeft
  extract_lets n
  have hn : n.key? = t.key? := by cases t <;> rfl
  split
  · rename_i h
    rcases n with _ | ⟨k, v, c, l, _ | ⟨rk, rv, rc, _ | ⟨k', v', c', l', r'⟩, rr⟩⟩
    · cases h
    · cases h
    · cases h
    · exact Or.inr hn
  · exact Or.inl hn

/-- The key of a node that is prepared stays at the top, or goes to the left. -/
theorem key_prepareLeft (t : LLRBNode κ α) :
    t.prepareLeft.key? = t.key? ∨ t.prepareLeft.left.key? = t.key? := by
  unfold prepareLeft
  split
  · exact key_moveRedLeft t
  · exact Or.inl rfl

theorem toList_withLeft (l' : LLRBNode κ α) (ht : t ≠ .empty) : ∃ k v, t.key? = some k ∧
    t.toList = t.left.toList ++ (k, v) :: t.right.toList ∧
    (t.withLeft l').toList = l'.toList ++ (k, v) :: t.right.toList := by
  cases t with
  | empty => exact absurd rfl ht
  | node k v c l r => exact ⟨k, v, rfl, rfl, rfl⟩

theorem min_eq (t : LLRBNode κ α) : t.min = t.toList.head? := by
  fun_induction LLRBNode.min t with
  | case1 => rfl
  | case2 k v c r => rfl
  | case3 k v c l r hne ih =>
    rw [ih, toList_node]
    cases l with
    | empty => exact absurd rfl hne
    | node k' v' c' l' r' => simp [List.head?_append]

/-- **Removing the least entry** of a tree with a red node at the top. -/
theorem removeMin_spec (h : Balanced t c n) (hready : Ready t) :
    Removed c n t.removeMin ∧ ∃ e, t.toList = e :: t.removeMin.toList := by
  fun_induction removeMin t generalizing c n with
  | case1 t hl =>
    have hleft := isEmpty_iff.1 hl
    cases h with
    | empty => exact absurd rfl hready.ne_empty
    | @red k v l r _ hbl hbr =>
      rw [left_node] at hleft
      subst hleft
      cases hbl
      rw [hbr.eq_empty]
      exact ⟨⟨.black, .empty, fun _ => rfl⟩, (k, v), rfl⟩
    | black hbl hbr =>
      rcases hready with hr | hr
      · cases hr
      · rw [hleft] at hr
        cases hr
  | case2 t hl ih =>
    have hne : t.left ≠ .empty := fun he => hl (isEmpty_iff.2 he)
    have hpl : Ready t.prepareLeft.left := by
      rcases prepareLeft_spec h with ⟨-, ⟨he, -⟩ | hr⟩ | ⟨-, hf⟩
      · exact absurd he hne
      · exact hr
      · exact hf.ready_left
    refine ⟨removed_left h hready fun cl m hbl => (ih hbl hpl).1, ?_⟩
    have hpne : t.prepareLeft ≠ .empty := by
      intro he
      rw [he] at hpl
      exact hpl.ne_empty rfl
    obtain ⟨k, v, -, hp, hw⟩ := toList_withLeft t.prepareLeft.left.removeMin hpne
    obtain ⟨cl, m, hbl⟩ := exists_balanced_left h
    obtain ⟨-, e, he⟩ := ih hbl hpl
    refine ⟨e, ?_⟩
    rw [toList_fixUp, hw, ← toList_prepareLeft, hp, he, List.cons_append]

/-! ### The colour of the root -/

/-- The trees differ at most in the colour of their root. -/
def Recolored (t u : LLRBNode κ α) : Prop := t.withColor .black = u.withColor .black

theorem Recolored.withColor (t : LLRBNode κ α) (c : Color) : Recolored (t.withColor c) t := by
  cases t <;> rfl

section Recolored

variable {u : LLRBNode κ α} (h : Recolored t u)

include h

theorem Recolored.left : t.left = u.left := by
  cases t <;> cases u <;> simp_all [Recolored, LLRBNode.withColor]

theorem Recolored.right : t.right = u.right := by
  cases t <;> cases u <;> simp_all [Recolored, LLRBNode.withColor]

theorem Recolored.withLeft (l : LLRBNode κ α) : Recolored (t.withLeft l) (u.withLeft l) := by
  cases t <;> cases u <;> simp_all [Recolored, LLRBNode.withColor, LLRBNode.withLeft]

theorem Recolored.withRight (r : LLRBNode κ α) : Recolored (t.withRight r) (u.withRight r) := by
  cases t <;> cases u <;> simp_all [Recolored, LLRBNode.withColor, LLRBNode.withRight]

theorem Recolored.colorFlip : Recolored t.colorFlip u.colorFlip := by
  cases t <;> cases u <;> simp_all [Recolored, LLRBNode.withColor, LLRBNode.colorFlip]

theorem Recolored.rotateLeft : Recolored t.rotateLeft u.rotateLeft := by
  rcases t with _ | ⟨k, v, c, l, _ | _⟩ <;> rcases u with _ | ⟨k', v', c', l', _ | _⟩ <;>
    simp_all [Recolored, LLRBNode.withColor, LLRBNode.rotateLeft]

theorem Recolored.rotateRight : Recolored t.rotateRight u.rotateRight := by
  rcases t with _ | ⟨k, v, c, _ | _, r⟩ <;> rcases u with _ | ⟨k', v', c', _ | _, r'⟩ <;>
    simp_all [Recolored, LLRBNode.withColor, LLRBNode.rotateRight]

omit h in
theorem Recolored.ite {p : Prop} [Decidable p] {t t' u u' : LLRBNode κ α} (h : Recolored t u) (h' : Recolored t' u') :
    Recolored (if p then t else t') (if p then u else u') := by
  split
  · exact h
  · exact h'

theorem Recolored.fixUp : Recolored t.fixUp u.fixUp := by
  unfold LLRBNode.fixUp
  extract_lets m n m' n'
  have hm : Recolored m m' := by
    simp only [m, m', h.left, h.right]
    exact h.rotateLeft.ite h
  have hn : Recolored n n' := by
    simp only [n, n', hm.left]
    exact hm.rotateRight.ite hm
  rw [hn.left, hn.right]
  exact hn.colorFlip.ite hn

theorem Recolored.moveRedLeft : Recolored t.moveRedLeft u.moveRedLeft := by
  have hf := h.colorFlip
  simp only [LLRBNode.moveRedLeft, hf.right]
  exact (hf.withRight _).rotateLeft.colorFlip.ite hf

theorem Recolored.moveRedRight : Recolored t.moveRedRight u.moveRedRight := by
  have hf := h.colorFlip
  simp only [LLRBNode.moveRedRight, hf.left]
  exact hf.rotateRight.colorFlip.ite hf

theorem Recolored.prepareLeft : Recolored t.prepareLeft u.prepareLeft := by
  unfold LLRBNode.prepareLeft
  rw [h.left]
  exact h.moveRedLeft.ite h

theorem Recolored.prepareRight : Recolored t.prepareRight u.prepareRight := by
  unfold LLRBNode.prepareRight
  extract_lets n n'
  have hn : Recolored n n' := by
    simp only [n, n', h.left]
    exact h.rotateRight.ite h
  rw [hn.right]
  exact hn.moveRedRight.ite hn

end Recolored

end Balance

section Order

variable [LinearOrder κ]

/-! ## Removing -/

section Remove

variable {k k' j : κ} {v : α} {l r t : LLRBNode κ α} {c cr : Color} {m n : Nat}

@[simp] theorem remove_empty (k : κ) : remove k (empty : LLRBNode κ α) = empty := by
  rw [remove]

theorem remove_of_lt (h : k < j) : remove k (.node j v c l r) =
    ((LLRBNode.node j v c l r).prepareLeft.withLeft (remove k (LLRBNode.node j v c l r).prepareLeft.left)).fixUp := by
  rw [remove]
  simp only [if_pos h]

/-- The end of `remove:` at a node whose key is not greater. -/
def removeHere (k : κ) : LLRBNode κ α → LLRBNode κ α
  | empty => empty
  | node j v c l r =>
    if k = j then
      match r.min with
      | none => empty
      | some smallest => (node smallest.1 smallest.2 c l (remove k r.removeMin)).fixUp
    else (node j v c l (remove k r)).fixUp

theorem remove_of_not_lt (h : ¬k < j) : remove k (.node j v c l r) =
    removeHere k (LLRBNode.node j v c l r).prepareRight := by
  rw [remove]
  simp only [if_neg h]
  unfold removeHere
  cases (LLRBNode.node j v c l r).prepareRight <;> rfl

/-- A key below all others is not found, and the tree keeps its entries, its colour and its height. -/
theorem remove_below (h : ∀ e ∈ t.toList, k < e.1) :
    (remove k t).toList = t.toList ∧ ∀ c n, Balanced t c n → Balanced (remove k t) c n := by
  induction hcount : t.count using Nat.strongRecOn generalizing t with
  | ind _ ih =>
    subst hcount
    cases t with
    | empty => simp
    | node j v c l r =>
      rw [remove_of_lt (h (j, v) (by simp))]
      have htl := toList_prepareLeft (.node j v c l r)
      have hne : LLRBNode.node j v c l r ≠ empty := by simp
      obtain ⟨k', v', -, hp, hw⟩ := toList_withLeft (remove k (LLRBNode.node j v c l r).prepareLeft.left)
        (ne_empty_of_toList htl hne)
      have hbelow : ∀ e ∈ (LLRBNode.node j v c l r).prepareLeft.left.toList, k < e.1 := by
        intro e he
        apply h
        rw [← htl, hp]
        exact List.mem_append_left _ he
      obtain ⟨hlist, hbal⟩ := ih _ (count_left_lt htl hne) hbelow rfl
      refine ⟨?_, fun c' n hb => kept_left hb fun cl m hl => hbal cl m hl⟩
      rw [toList_fixUp, hw, hlist, ← hp, htl]

/-- Removing at or to the right of a node, the right child being ready. -/
theorem removeHere_spec (hs : Assoc.Sorted (LLRBNode.node j v c l r).toList) (hk : j ≤ k) (hr : Balanced r cr m)
    (hready : Ready r) (ih : Removed cr m (remove k r) ∧ (remove k r).toList = Assoc.removeKey k r.toList) :
    ∃ e r', removeHere k (.node j v c l r) = fixUp (.node e.1 e.2 c l r') ∧ Removed cr m r' ∧
      l.toList ++ e :: r'.toList = Assoc.removeKey k (LLRBNode.node j v c l r).toList := by
  obtain ⟨hsl, hsr, hlt, hgt⟩ := Lib.Assoc.sorted_middle.1 hs
  by_cases he : k = j
  · -- the least entry on the right takes the place of the removed one
    subst he
    obtain ⟨hrem, e, hlist⟩ := removeMin_spec hr hready
    have hmin : r.min = some e := by rw [min_eq, hlist]; rfl
    obtain ⟨hlist', hbal⟩ := remove_below (k := k) (t := r.removeMin) fun d hd =>
      hgt d (by rw [hlist]; exact List.mem_cons_of_mem _ hd)
    refine ⟨e, remove k r.removeMin, by simp [removeHere, hmin], ?_, ?_⟩
    · obtain ⟨c', hb, hblack⟩ := hrem
      exact ⟨c', hbal c' m hb, hblack⟩
    · rw [hlist', ← hlist, toList_node, Lib.Assoc.removeKey_middle_self hlt hgt]
  · refine ⟨(j, v), remove k r, by simp [removeHere, he], ih.1, ?_⟩
    rw [ih.2, toList_node, Lib.Assoc.removeKey_middle_of_gt (lt_of_le_of_ne hk (Ne.symm he)) hlt]

theorem sorted_children (hs : Assoc.Sorted t.toList) : Assoc.Sorted t.left.toList ∧ Assoc.Sorted t.right.toList := by
  cases t with
  | empty => exact ⟨hs, hs⟩
  | node k v c l r =>
    obtain ⟨hl, hr, -, -⟩ := Lib.Assoc.sorted_middle.1 hs
    exact ⟨hl, hr⟩

/-- The key of a node is below that of its right child. -/
theorem lt_of_key_right (hs : Assoc.Sorted (LLRBNode.node j v c l r).toList) (h : r.key? = some k) : j < k := by
  obtain ⟨w, hw⟩ := exists_mem_of_key h
  exact (Lib.Assoc.sorted_middle.1 hs).2.2.2 _ hw

/-- What removing does to a tree with a red node at the top. -/
def RemoveReady (k : κ) (t : LLRBNode κ α) : Prop :=
  ∀ c n, Balanced t c n → Ready t → Removed c n (remove k t) ∧ (remove k t).toList = Assoc.removeKey k t.toList

/-- What removing does to a tree that leans to the right, on the way to a key that is not less. -/
def RemoveHeavy (k : κ) (t : LLRBNode κ α) : Prop :=
  ∀ n, RightHeavy t n → (∀ j, t.key? = some j → j ≤ k) →
    Balanced (remove k t) .black n ∧ (remove k t).toList = Assoc.removeKey k t.toList

theorem removeHeavy_here {p : LLRBNode κ α} (hs : Assoc.Sorted p.toList) (ih : RemoveReady k p.right)
    (hp : RightHeavy p n) (hk : ∀ j, p.key? = some j → j ≤ k) :
    Balanced (removeHere k p) .black n ∧ (removeHere k p).toList = Assoc.removeKey k p.toList := by
  cases hp with
  | mk hl hr =>
    have hready : Ready _ := Or.inl (by rw [hr.isRed_eq]; rfl)
    obtain ⟨e, r', heq, hrem, hlist⟩ := removeHere_spec hs (hk _ rfl) hr hready (ih _ _ hr hready)
    rw [heq]
    exact ⟨removed_black hl.removed hrem (Or.inl rfl), by rw [toList_fixUp, toList_node, ← hlist]⟩

theorem key_lt_of_right {p : LLRBNode κ α} (hs : Assoc.Sorted p.toList) (hr : p.right.key? = some k') (hk : k' ≤ k)
    (hj : p.key? = some j) : j < k := by
  cases p with
  | empty => cases hj
  | node i w d l r =>
    cases hj
    exact (lt_of_key_right hs hr).trans_le hk

/-- A red node both of whose children are black, and which is ready on the right. -/
theorem removeReady_red (hs : Assoc.Sorted (LLRBNode.node j v .red l r).toList) (hl : Balanced l .black m)
    (hr : Balanced r .black m) (hk : j ≤ k) (hright : r = .empty ∨ Ready r) (ih : RemoveReady k r) :
    Removed .red m (removeHere k (.node j v .red l r)) ∧
      (removeHere k (.node j v .red l r)).toList = Assoc.removeKey k (LLRBNode.node j v .red l r).toList := by
  rcases hright with rfl | hready
  · -- without a right child there is no left one either
    cases hr
    cases hl.eq_empty
    by_cases he : k = j
    · subst he
      have hrem : removeHere k (.node k v .red empty empty) = empty := by simp [removeHere, LLRBNode.min]
      rw [hrem]
      exact ⟨⟨.black, .empty, fun _ => rfl⟩, by simp [Assoc.removeKey]⟩
    · have hrem : removeHere k (.node j v .red empty empty) = .node j v .red empty empty := by
        simp [removeHere, he, fixUp_of_balanced (.red .empty .empty)]
      rw [hrem, toList_node, Lib.Assoc.removeKey_eq_self (by simpa using Ne.symm he)]
      exact ⟨(Balanced.red .empty .empty).removed, rfl⟩
  · obtain ⟨e, r', heq, ⟨c', hb, hblack⟩, hlist⟩ := removeHere_spec hs hk hr hready (ih _ _ hr hready)
    cases hblack rfl
    rw [heq, fixUp_of_balanced (.red hl hb), ← hlist]
    exact ⟨(Balanced.red hl hb).removed, rfl⟩

theorem removeReady_here (hs : Assoc.Sorted t.toList) (h : Balanced t c n) (hready : Ready t)
    (hk : ∀ j, t.key? = some j → j ≤ k) (ih : RemoveReady k t.prepareRight.right)
    (ih' : RemoveHeavy k t.prepareRight.right) :
    Removed c n (removeHere k t.prepareRight) ∧ (removeHere k t.prepareRight).toList = Assoc.removeKey k t.toList := by
  obtain ⟨i, hi⟩ := hready.exists_key
  have hik : i ≤ k := hk i hi
  have hsp : Assoc.Sorted t.prepareRight.toList := (toList_prepareRight t).symm ▸ hs
  rw [← toList_prepareRight t]
  rcases prepareRight_spec h with ⟨hred, heq, hright⟩ | ⟨hheavy, hkey, rfl⟩ | ⟨hshift, hkey⟩ | ⟨hred, hflip, hkey⟩
  · -- nothing is moved
    rw [heq] at ih ⊢
    cases hready.eq_red h hred
    cases h with
    | red hl hr => exact removeReady_red hs hl hr (hk _ rfl) hright ih
  · -- the red left child was rotated to the right
    rw [hi] at hkey
    obtain ⟨hb, hlist⟩ := removeHeavy_here hsp ih hheavy fun j hj => (key_lt_of_right hsp hkey hik hj).le
    exact ⟨hb.removed, hlist⟩
  · -- the right child got an entry of its sibling
    rw [hi] at hkey
    generalize t.prepareRight = p at *
    cases hshift with
    | @mk j v l r m hl hr =>
      have hjk : j < k := key_lt_of_right hsp hkey hik rfl
      rw [right_node] at hkey ih'
      obtain ⟨hb, hlist⟩ := ih' m hr fun a ha => by
        rw [hkey] at ha
        cases ha
        exact hik
      have hrem : removeHere k (.node j v c l r) = .node j v c l (remove k r) := by
        have hbal : Balanced (.node j v c l (remove k r)) c (m + c.weight) := Balanced.node hl hb fun _ => rfl
        simp [removeHere, hjk.ne', fixUp_of_balanced hbal]
      rw [hrem, toList_node, toList_node, hlist,
        Lib.Assoc.removeKey_middle_of_gt hjk (Lib.Assoc.sorted_middle.1 hsp).2.2.1]
      exact ⟨(Balanced.node hl hb fun _ => rfl).removed, rfl⟩
  · -- the node gave its colour to both children
    cases hready.eq_red h hred
    rw [hi] at hkey
    generalize t.prepareRight = p at *
    cases hflip with
    | @mk j v l r m hl hr =>
      cases hkey
      have hrr : Ready r := Or.inl (by rw [hr.isRed_eq]; rfl)
      obtain ⟨e, r', heq, ⟨c', hb, -⟩, hlist⟩ := removeHere_spec hsp hik hr hrr (ih _ _ hr hrr)
      obtain ⟨c'', hres, -⟩ := fixUp_black (k := e.1) (v := e.2) hl hb
      rw [heq, toList_fixUp, ← hlist]
      exact ⟨⟨c'', hres, fun h => by cases h⟩, rfl⟩

/-- Removing to the left of a node. -/
theorem removeReady_left (hs : Assoc.Sorted (LLRBNode.node j v c l r).toList) (hk : k < j)
    (ih : RemoveReady k (LLRBNode.node j v c l r).prepareLeft.left) : RemoveReady k (.node j v c l r) := by
  intro c' n hb hready
  have htl := toList_prepareLeft (.node j v c l r)
  have hkey := key_prepareLeft (.node j v c l r)
  have hbelow : ∀ cl m, Balanced (LLRBNode.node j v c l r).prepareLeft.left cl m →
      Removed cl m (remove k (LLRBNode.node j v c l r).prepareLeft.left) ∧
        (remove k (LLRBNode.node j v c l r).prepareLeft.left).toList =
          Assoc.removeKey k (LLRBNode.node j v c l r).prepareLeft.left.toList := by
    intro cl m hl
    rcases left_empty_or_ready hb with he | hr
    · rw [he] at hl ⊢
      rw [remove_empty]
      exact ⟨hl.removed, rfl⟩
    · exact ih cl m hl hr
  rw [remove_of_lt hk]
  refine ⟨removed_left hb hready fun cl m hl => (hbelow cl m hl).1, ?_⟩
  obtain ⟨cl, m, hl⟩ := exists_balanced_left hb
  obtain ⟨i, w, hi, hp, hw⟩ := toList_withLeft (remove k (LLRBNode.node j v c l r).prepareLeft.left)
    (ne_empty_of_toList htl (by simp))
  rw [← htl, hp] at hs
  obtain ⟨-, -, hlt, hgt⟩ := Lib.Assoc.sorted_middle.1 hs
  have hki : k < i := by
    rcases hkey with h | h
    · rw [hi] at h
      cases h
      exact hk
    · obtain ⟨w', hw'⟩ := exists_mem_of_key h
      exact hk.trans (hlt _ hw')
  rw [toList_fixUp, hw, (hbelow cl m hl).2, ← htl, hp, Lib.Assoc.removeKey_middle_of_lt hki hgt]

/-- **Removing**, from a tree with a red node at the top or one that leans to the right. -/
theorem remove_spec (k : κ) (hs : Assoc.Sorted t.toList) : RemoveReady k t ∧ RemoveHeavy k t := by
  induction hcount : t.count using Nat.strongRecOn generalizing t with
  | ind _ ih =>
    subst hcount
    cases t with
    | empty => exact ⟨fun c n hb hr => absurd rfl hr.ne_empty, fun n hr => by cases hr⟩
    | node j v c l r =>
      have hne : LLRBNode.node j v c l r ≠ empty := by simp
      have htl := toList_prepareLeft (.node j v c l r)
      have htr := toList_prepareRight (.node j v c l r)
      by_cases hk : k < j
      · obtain ⟨hsl, -⟩ := sorted_children (htl ▸ hs)
        refine ⟨removeReady_left hs hk (ih _ (count_left_lt htl hne) hsl rfl).1, fun n _ hj => ?_⟩
        exact absurd (hj j rfl) (not_le.2 hk)
      · obtain ⟨-, hsr⟩ := sorted_children (htr ▸ hs)
        obtain ⟨hready, hheavy⟩ := ih _ (count_right_lt htr hne) hsr rfl
        have hj : ∀ i, (LLRBNode.node j v c l r).key? = some i → i ≤ k := by
          intro i hi
          cases hi
          exact not_lt.1 hk
        rw [RemoveReady, RemoveHeavy, remove_of_not_lt hk]
        refine ⟨fun c' n hb hr => removeReady_here hs hb hr hj hready hheavy, fun n hl _ => ?_⟩
        rw [prepareRight_of_rightHeavy hl] at hready ⊢
        exact removeHeavy_here hs hready hl hj

theorem Recolored.removeHere {u : LLRBNode κ α} (h : Recolored t u) (k : κ) :
    Recolored (removeHere k t) (removeHere k u) := by
  cases t with
  | empty =>
    cases u with
    | empty => rfl
    | node k' v c l r => cases h
  | node j v c l r =>
    cases u with
    | empty => cases h
    | node j' v' c' l' r' =>
      have hnode : ∀ (e : κ × α) (x : LLRBNode κ α), Recolored (.node e.1 e.2 c l x) (.node e.1 e.2 c' l x) :=
        fun _ _ => rfl
      cases h
      simp only [LLRBNode.removeHere]
      refine Recolored.ite ?_ (hnode (j, v) _).fixUp
      cases r.min with
      | none => rfl
      | some smallest => exact (hnode smallest _).fixUp

/-- The colour of the root has no say in a removal. -/
theorem Recolored.remove {u : LLRBNode κ α} (h : Recolored t u) (k : κ) : Recolored (remove k t) (remove k u) := by
  cases t with
  | empty =>
    cases u with
    | empty => rfl
    | node k' v c l r => cases h
  | node j v c l r =>
    cases u with
    | empty => cases h
    | node j' v' c' l' r' =>
      obtain rfl : j = j' := by cases h; rfl
      by_cases hk : k < j
      · rw [remove_of_lt hk, remove_of_lt hk, h.prepareLeft.left]
        exact (h.prepareLeft.withLeft _).fixUp
      · rw [remove_of_not_lt hk, remove_of_not_lt hk]
        exact h.prepareRight.removeHere k

/-- **Removing from a whole tree**, whose root is blackened afterwards. -/
theorem remove_root (k : κ) (hs : Assoc.Sorted t.toList) (h : Balanced t .black n) :
    (∃ n', Balanced ((remove k t).withColor .black) .black n') ∧
      ((remove k t).withColor .black).toList = Assoc.removeKey k t.toList := by
  have hblacken : ∀ {c n} {u : LLRBNode κ α}, Balanced u c n → ∃ n', Balanced (u.withColor .black) .black n' :=
    fun hb => hb.inserted.withColor
  by_cases hready : Ready t
  · obtain ⟨⟨c', hb, -⟩, hlist⟩ := (remove_spec k hs).1 _ _ h hready
    exact ⟨hblacken hb, by rw [toList_withColor, hlist]⟩
  · -- a red root is ready, and gives the same tree
    have hrec : (remove k (t.withColor .red)).withColor .black = (remove k t).withColor .black :=
      (Recolored.withColor t .red).remove k
    rw [← hrec, toList_withColor]
    rw [← toList_withColor t .red] at hs ⊢
    cases h with
    | empty => exact ⟨⟨0, by rw [withColor, remove_empty]; exact .empty⟩, by rw [withColor, remove_empty]; rfl⟩
    | @black j v l r cl m hl hr =>
      have hcl : cl = .black := hl.eq_black (by
        rw [← Bool.not_eq_true]
        exact fun hred => hready (Or.inr hred))
      subst hcl
      obtain ⟨⟨c', hb, -⟩, hlist⟩ := (remove_spec k hs).1 _ _ (.red hl hr) (Or.inl rfl)
      exact ⟨hblacken hb, hlist⟩

end Remove

end Order

end LLRBNode

end ChatApp
