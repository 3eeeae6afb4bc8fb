import ChatApp.Firebase.LLRB.Node

/-!
# Balance

No red node has a red child, no right child is red, and all paths have the same number of black nodes (`Balanced`).

- `check_eq_ok`: this is what `check` tests;
- `Balanced.pow_le_count`, `Balanced.depth_le_log`: a balanced tree passes `checkMaxDepth` and is of logarithmic depth;
- `fixUp_of_balanced`, `fixUp_reds`, `fixUp_black`, `fixUp_redRed`: what `fixUp` repairs;
- `inserted_insertKey`, `toList_insertKey`: inserting below the root leaves a balanced tree or one with two red nodes in
  a row at the top, which the parent repairs.
-/

namespace ChatApp

open Lib (Assoc.insertKey Assoc.Sorted)

namespace LLRBNode

variable {κ α : Type}

/-! ## Balance -/

/-- The tree has this colour and this many black nodes on each path. -/
inductive Balanced : LLRBNode κ α → Color → Nat → Prop
  | empty : Balanced empty .black 0
  | red {k : κ} {v : α} {l r : LLRBNode κ α} {n : Nat} (hl : Balanced l .black n) (hr : Balanced r .black n) :
    Balanced (node k v .red l r) .red n
  | black {k : κ} {v : α} {l r : LLRBNode κ α} {c : Color} {n : Nat} (hl : Balanced l c n) (hr : Balanced r .black n) :
    Balanced (node k v .black l r) .black (n + 1)

section Balance

variable {k : κ} {v : α} {l r t : LLRBNode κ α} {c cl cr : Color} {m n : Nat}

theorem Balanced.isRed_eq (h : Balanced t c n) : t.isRed = decide (c = .red) := by
  cases h <;> simp

theorem Balanced.left_black (h : Balanced t .red n) : t.left.isRed = false := by
  cases h with
  | red hl hr => simp [hl.isRed_eq]

theorem Balanced.node (hl : Balanced l cl m) (hr : Balanced r .black m) (hc : c = .red → cl = .black) :
    Balanced (node k v c l r) c (m + c.weight) := by
  cases c with
  | red =>
    cases hc rfl
    exact .red hl hr
  | black => exact .black hl hr

/-- `check` accepts exactly the balanced trees. -/
theorem check_eq_ok : t.check = .ok n ↔ ∃ c, Balanced t c n := by
  constructor
  · intro h
    induction t generalizing n with
    | empty => cases h; exact ⟨.black, .empty⟩
    | node k v c l r ihl ihr =>
      unfold check at h
      split at h
      · cases h
      · rename_i hred
        split at h
        · cases h
        · rename_i hright
          cases hl : l.check with
          | error e => simp [hl, bind, Except.bind] at h
          | ok a =>
            cases hr : r.check with
            | error e => simp [hl, hr, bind, Except.bind] at h
            | ok b =>
              obtain ⟨cl, hbl⟩ := ihl hl
              obtain ⟨cr, hbr⟩ := ihr hr
              simp only [hl, hr, bind, Except.bind] at h
              split at h
              · rename_i hab
                subst hab
                cases h
                refine ⟨c, ?_⟩
                have hcr : cr = .black := by
                  rw [hbr.isRed_eq] at hright
                  cases cr <;> simp_all
                have hcl : c = .red → cl = .black := by
                  rintro rfl
                  rw [hbl.isRed_eq] at hred
                  cases cl <;> simp_all
                cases hcr
                cases c <;> exact Balanced.node hbl hbr hcl
              · cases h
  · rintro ⟨c, h⟩
    induction h with
    | empty => rfl
    | red hl hr ihl ihr => simp [check, ihl, ihr, hl.isRed_eq, hr.isRed_eq, bind, Except.bind]; rfl
    | black hl hr ihl ihr => simp [check, ihl, ihr, hr.isRed_eq, bind, Except.bind]; rfl

/-! ### Depth -/

/-- A balanced tree is full down to its black depth. -/
theorem Balanced.pow_le_count (h : Balanced t c n) : 2 ^ n ≤ t.count + 1 := by
  induction h with
  | empty => exact Nat.le_refl _
  | red hl hr ihl ihr =>
    rw [count]
    omega
  | black hl hr ihl ihr =>
    rw [count, Nat.pow_succ]
    omega

/-- At most every other node on a way down is red. -/
theorem Balanced.depth_le (h : Balanced t c n) : t.depth ≤ 2 * n + if c = .red then 1 else 0 := by
  induction h with
  | empty => exact Nat.le_refl _
  | red hl hr ihl ihr =>
    simp only [reduceCtorEq, if_false, Nat.add_zero] at ihl ihr
    simp only [depth, if_true]
    omega
  | @black _ _ _ _ c _ hl hr ihl ihr =>
    simp only [reduceCtorEq, if_false, Nat.add_zero] at ihr
    have hred : (if c = .red then 1 else 0) ≤ 1 := by split <;> omega
    simp only [depth, reduceCtorEq, if_false]
    omega

theorem Balanced.checkMaxDepth_eq (h : Balanced t c n) : t.checkMaxDepth = .ok true := by
  rw [checkMaxDepth, check_eq_ok.2 ⟨c, h⟩]
  exact congrArg Except.ok (decide_eq_true h.pow_le_count)

/-- The depth is logarithmic in the number of entries. -/
theorem Balanced.depth_le_log (h : Balanced t .black n) : t.depth ≤ 2 * Nat.log2 (t.count + 1) := by
  have hn : n ≤ Nat.log2 (t.count + 1) := (Nat.le_log2 (Nat.succ_ne_zero _)).2 h.pow_le_count
  have hd := h.depth_le
  rw [if_neg (by decide)] at hd
  omega

/-! ### Repairs -/

theorem fixUp_of_balanced (h : Balanced t c n) : t.fixUp = t := by
  cases h with
  | empty => rfl
  | red hl hr => simp [fixUp, hl.isRed_eq, hr.isRed_eq]
  | @black _ _ l r cl _ hl hr =>
    cases cl with
    | red => simp [fixUp, hl.isRed_eq, hr.isRed_eq, hl.left_black]
    | black => simp [fixUp, hl.isRed_eq, hr.isRed_eq]

/-- Two red children hand their colour up, and the node takes back the colour it gave down. -/
theorem fixUp_reds (hl : Balanced l .red m) (hr : Balanced r .red m) :
    Balanced (fixUp (.node k v c.flip l r)) c (m + 1 + c.weight) := by
  have hfix : fixUp (.node k v c.flip l r) = .node k v c l.flipColor r.flipColor := by
    simp [fixUp, hl.isRed_eq, hr.isRed_eq, hl.left_black, colorFlip]
  rw [hfix]
  cases hl with
  | red hll hlr =>
    cases hr with
    | red hrl hrr => exact Balanced.node (.black hll hlr) (.black hrl hrr) fun _ => rfl

/-- A black node over two balanced trees. -/
theorem fixUp_black (hl : Balanced l cl m) (hr : Balanced r cr m) :
    ∃ c, Balanced (fixUp (.node k v .black l r)) c (m + 1) ∧ (¬(cl = .red ∧ cr = .red) → c = .black) := by
  cases cr with
  | black =>
    have h : Balanced (.node k v .black l r) .black (m + 1) := .black hl hr
    exact ⟨.black, by rw [fixUp_of_balanced h]; exact h, fun _ => rfl⟩
  | red =>
    cases cl with
    | red => exact ⟨.red, fixUp_reds (c := .red) hl hr, fun h => absurd ⟨rfl, rfl⟩ h⟩
    | black =>
      cases hr with
      | @red rk rv rl rr _ hrl hrr =>
        have hfix : fixUp (.node k v .black l (.node rk rv .red rl rr)) =
            .node rk rv .black (.node k v .red l rl) rr := by
          simp [fixUp, rotateLeft, hl.isRed_eq, hrr.isRed_eq]
        rw [hfix]
        exact ⟨.black, .black (.red hl hrl) hrr, fun _ => rfl⟩

/-! ### Inserting -/

/-- A red node over a red left child. -/
inductive RedRed : LLRBNode κ α → Nat → Prop
  | mk {k : κ} {v : α} {l r : LLRBNode κ α} {n : Nat} (hl : Balanced l .red n) (hr : Balanced r .black n) :
    RedRed (.node k v .red l r) n

/-- A black node repairs two red nodes in a row below it. -/
theorem fixUp_redRed (hl : RedRed l m) (hr : Balanced r .black m) :
    Balanced (fixUp (.node k v .black l r)) .red (m + 1) := by
  cases hl with
  | @mk lk lv ll lr _ hll hlr =>
    cases hll with
    | @red llk llv lll llr _ hlll hllr =>
      have hfix : fixUp (.node k v .black (.node lk lv .red (.node llk llv .red lll llr) lr) r) =
          .node lk lv .red (.node llk llv .black lll llr) (.node k v .black lr r) := by
        simp [fixUp, rotateRight, colorFlip, flipColor, hr.isRed_eq]
      rw [hfix]
      exact .red (.black hlll hllr) (.black hlr hr)

/-- A red node over one red child. -/
theorem fixUp_red_left (hl : Balanced l .red m) (hr : Balanced r .black m) :
    RedRed (fixUp (.node k v .red l r)) m := by
  have h : RedRed (.node k v .red l r) m := .mk hl hr
  simpa [fixUp, hl.isRed_eq, hr.isRed_eq, hl.left_black] using h

theorem fixUp_red_right (hl : Balanced l .black m) (hr : Balanced r .red m) :
    RedRed (fixUp (.node k v .red l r)) m := by
  cases hr with
  | @red rk rv rl rr _ hrl hrr =>
    have hfix : fixUp (.node k v .red l (.node rk rv .red rl rr)) = .node rk rv .red (.node k v .red l rl) rr := by
      simp [fixUp, rotateLeft, hl.isRed_eq, hrr.isRed_eq]
    rw [hfix]
    exact .mk (.red hl hrl) hrr

/-- What inserting into a balanced tree gives: a balanced tree, or two red nodes in a row where there was a red one. -/
def Inserted (c : Color) (n : Nat) (t : LLRBNode κ α) : Prop := (∃ c', Balanced t c' n) ∨ (c = .red ∧ RedRed t n)

theorem Balanced.inserted (h : Balanced t c n) : Inserted c n t := Or.inl ⟨c, h⟩

/-- Blackening the root of a tree repairs what inserting left behind. -/
theorem Inserted.withColor (h : Inserted c n t) :
    ∃ n', Balanced (t.withColor .black) .black n' := by
  rcases h with ⟨c', h⟩ | ⟨-, h⟩
  · cases h with
    | empty => exact ⟨0, .empty⟩
    | red hl hr => exact ⟨_, .black hl hr⟩
    | black hl hr => exact ⟨_, .black hl hr⟩
  · cases h with
    | mk hl hr => exact ⟨_, .black hl hr⟩

theorem inserted_left (hl : Inserted cl m l) (hr : Balanced r .black m) (hc : c = .red → cl = .black) :
    Inserted c (m + c.weight) (fixUp (.node k v c l r)) := by
  cases c with
  | red =>
    cases hc rfl
    rcases hl with ⟨cl', hl⟩ | ⟨h, -⟩
    · cases cl' with
      | red => exact Or.inr ⟨rfl, fixUp_red_left hl hr⟩
      | black =>
        have h : Balanced (.node k v .red l r) .red m := .red hl hr
        exact Or.inl ⟨.red, by rw [fixUp_of_balanced h]; exact h⟩
    · cases h
  | black =>
    rcases hl with ⟨cl', hl⟩ | ⟨-, hl⟩
    · obtain ⟨c', h, -⟩ := fixUp_black (k := k) (v := v) hl hr
      exact Or.inl ⟨c', h⟩
    · exact Or.inl ⟨.red, fixUp_redRed hl hr⟩

theorem inserted_right (hl : Balanced l cl m) (hr : Inserted .black m r) (hc : c = .red → cl = .black) :
    Inserted c (m + c.weight) (fixUp (.node k v c l r)) := by
  rcases hr with ⟨cr', hr⟩ | ⟨h, -⟩
  · cases c with
    | red =>
      cases hc rfl
      cases cr' with
      | red => exact Or.inr ⟨rfl, fixUp_red_right hl hr⟩
      | black =>
        have h : Balanced (.node k v .red l r) .red m := .red hl hr
        exact Or.inl ⟨.red, by rw [fixUp_of_balanced h]; exact h⟩
    | black =>
      obtain ⟨c', h, -⟩ := fixUp_black (k := k) (v := v) hl hr
      exact Or.inl ⟨c', h⟩
  · cases h

end Balance

section Order

variable [LinearOrder κ]

/-! ## Inserting -/

theorem toList_insertKey (k : κ) (v : α) {t : LLRBNode κ α} (h : Assoc.Sorted t.toList) :
    (t.insertKey k v).toList = Assoc.insertKey k v t.toList := by
  induction t with
  | empty => rfl
  | node k' v' c l r ihl ihr =>
    obtain ⟨hl, hr, hlt, hgt⟩ := Lib.Assoc.sorted_middle.1 h
    rw [insertKey, toList_node]
    split
    · rename_i hk
      rw [toList_fixUp, toList_node, ihl hl, Lib.Assoc.insertKey_append_left hk]
    · rename_i hk
      split
      · rename_i he
        subst he
        rw [toList_fixUp, toList_node, Lib.Assoc.insertKey_append_right hlt, Assoc.insertKey, if_neg (lt_irrefl k),
          if_pos rfl]
      · rename_i hne
        have hlt' : k' < k := lt_of_le_of_ne (not_lt.1 hk) (Ne.symm hne)
        rw [toList_fixUp, toList_node, ihr hr, Lib.Assoc.insertKey_append_right fun c hc => (hlt c hc).trans hlt',
          Assoc.insertKey, if_neg hk, if_neg hne]

theorem inserted_insertKey (k : κ) (v : α) {t : LLRBNode κ α} {c : Color} {n : Nat} (h : Balanced t c n) :
    Inserted c n (t.insertKey k v) := by
  induction h with
  | empty => exact Or.inl ⟨.red, .red .empty .empty⟩
  | @red k' v' l r n hl hr ihl ihr =>
    rw [insertKey]
    split
    · exact inserted_left ihl hr fun _ => rfl
    · split
      · exact inserted_left hl.inserted hr fun _ => rfl
      · exact inserted_right hl ihr fun _ => rfl
  | @black k' v' l r cl n hl hr ihl ihr =>
    rw [insertKey]
    split
    · exact inserted_left (c := .black) ihl hr fun h => by cases h
    · split
      · exact inserted_left (c := .black) hl.inserted hr fun h => by cases h
      · exact inserted_right (c := .black) hl ihr fun h => by cases h

end Order

end LLRBNode

end ChatApp
