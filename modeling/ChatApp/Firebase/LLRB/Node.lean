import ChatApp.Lib.Assoc
import Mathlib.Algebra.Group.Nat.Defs

/-!
# Left-leaning red-black trees

`FLLRBValueNode` and `FLLRBEmptyNode`, the nodes of a `FTreeSortedDictionary`. A node without colour is red; messages to
the missing children of an empty node answer nothing, so `left`, `right` and `isRed` of the empty node are empty and
black. Comparators are linear orders.

- `toList`: the entries in order. The rotations and colour flips keep them: `toList_fixUp`, `toList_moveRedLeft`,
  `toList_moveRedRight`;
- `insertKey`, `removeMin`, `remove`: the operations below the root.
-/

namespace ChatApp

open Lib (Assoc.insertKey Assoc.removeKey Assoc.Sorted)

/-- `FLLRBColor`. -/
inductive Color
  | red
  | black
  deriving DecidableEq

def Color.flip : Color → Color
  | red => black
  | black => red

@[simp] theorem Color.flip_red : Color.red.flip = black := rfl

@[simp] theorem Color.flip_black : Color.black.flip = red := rfl

@[simp] theorem Color.flip_flip (c : Color) : c.flip.flip = c := by
  cases c <;> rfl

/-- What a node adds to the black nodes on a path. -/
def Color.weight : Color → Nat
  | red => 0
  | black => 1

/-- `FLLRBEmptyNode` and `FLLRBValueNode`. -/
inductive LLRBNode (κ α : Type) : Type
  | empty : LLRBNode κ α
  | node (key : κ) (value : α) (color : Color) (left right : LLRBNode κ α) : LLRBNode κ α

namespace LLRBNode

variable {κ α : Type}

def left : LLRBNode κ α → LLRBNode κ α
  | empty => empty
  | node _ _ _ l _ => l

def right : LLRBNode κ α → LLRBNode κ α
  | empty => empty
  | node _ _ _ _ r => r

def isEmpty : LLRBNode κ α → Bool
  | empty => true
  | node _ _ _ _ _ => false

def isRed : LLRBNode κ α → Bool
  | node _ _ .red _ _ => true
  | _ => false

def count : LLRBNode κ α → Nat
  | empty => 0
  | node _ _ _ l r => l.count + 1 + r.count

def key? : LLRBNode κ α → Option κ
  | empty => none
  | node k _ _ _ _ => some k

/-- The entries that `inorderTraversal:` goes through. -/
def toList : LLRBNode κ α → List (κ × α)
  | empty => []
  | node k v _ l r => l.toList ++ (k, v) :: r.toList

/-- `copyWith:` with another colour, child or entry; on the empty node it changes nothing. -/
def withColor (t : LLRBNode κ α) (c : Color) : LLRBNode κ α :=
  match t with
  | empty => empty
  | node k v _ l r => node k v c l r

def flipColor : LLRBNode κ α → LLRBNode κ α
  | empty => empty
  | node k v c l r => node k v c.flip l r

def withLeft (t l : LLRBNode κ α) : LLRBNode κ α :=
  match t with
  | empty => empty
  | node k v c _ r => node k v c l r

def withRight (t r : LLRBNode κ α) : LLRBNode κ α :=
  match t with
  | empty => empty
  | node k v c l _ => node k v c l r

def rotateLeft : LLRBNode κ α → LLRBNode κ α
  | node k v c l (node rk rv _ rl rr) => node rk rv c (node k v .red l rl) rr
  | _ => empty

def rotateRight : LLRBNode κ α → LLRBNode κ α
  | node k v c (node lk lv _ ll lr) r => node lk lv c ll (node k v .red lr r)
  | _ => empty

def colorFlip : LLRBNode κ α → LLRBNode κ α
  | empty => empty
  | node k v c l r => node k v c.flip l.flipColor r.flipColor

def fixUp (t : LLRBNode κ α) : LLRBNode κ α :=
  let n := if t.right.isRed ∧ ¬t.left.isRed then t.rotateLeft else t
  let n := if n.left.isRed ∧ n.left.left.isRed then n.rotateRight else n
  if n.left.isRed ∧ n.right.isRed then n.colorFlip else n

def moveRedLeft (t : LLRBNode κ α) : LLRBNode κ α :=
  let n := t.colorFlip
  if n.right.left.isRed then ((n.withRight n.right.rotateRight).rotateLeft).colorFlip else n

def moveRedRight (t : LLRBNode κ α) : LLRBNode κ α :=
  let n := t.colorFlip
  if n.left.left.isRed then n.rotateRight.colorFlip else n

def min : LLRBNode κ α → Option (κ × α)
  | empty => none
  | node k v _ empty _ => some (k, v)
  | node _ _ _ l _ => l.min

/-- `check`: the number of black nodes on each path, or the first violation. -/
def check : LLRBNode κ α → Except String Nat
  | empty => .ok 0
  | node _ _ c l r =>
    if c = .red ∧ l.isRed then .error "Red node has a red child"
    else if r.isRed then .error "Right child is red"
    else do
      let blackDepth ← l.check
      if blackDepth = (← r.check) then return blackDepth + (if c = .red then 0 else 1) else .error "blackDepth"

/-- `checkMaxDepth`: `2 ^ blackDepth <= count + 1`. -/
def checkMaxDepth (t : LLRBNode κ α) : Except String Bool := do
  let blackDepth ← t.check
  return decide (2 ^ blackDepth ≤ t.count + 1)

/-- The nodes on the longest way down, which a lookup visits. -/
def depth : LLRBNode κ α → Nat
  | empty => 0
  | node _ _ _ l r => max l.depth r.depth + 1

/-! ## The entries -/

@[simp] theorem toList_empty : (empty : LLRBNode κ α).toList = [] := rfl

@[simp] theorem toList_node (k : κ) (v : α) (c : Color) (l r : LLRBNode κ α) :
    (node k v c l r).toList = l.toList ++ (k, v) :: r.toList := rfl

@[simp] theorem isRed_empty : (empty : LLRBNode κ α).isRed = false := rfl

@[simp] theorem isRed_node (k : κ) (v : α) (c : Color) (l r : LLRBNode κ α) :
    (node k v c l r).isRed = decide (c = .red) := by
  cases c <;> rfl

@[simp] theorem left_node (k : κ) (v : α) (c : Color) (l r : LLRBNode κ α) : (node k v c l r).left = l := rfl

@[simp] theorem right_node (k : κ) (v : α) (c : Color) (l r : LLRBNode κ α) : (node k v c l r).right = r := rfl

@[simp] theorem left_empty : (empty : LLRBNode κ α).left = empty := rfl

@[simp] theorem right_empty : (empty : LLRBNode κ α).right = empty := rfl

@[simp] theorem isEmpty_empty : (empty : LLRBNode κ α).isEmpty = true := rfl

@[simp] theorem isEmpty_node (k : κ) (v : α) (c : Color) (l r : LLRBNode κ α) :
    (node k v c l r).isEmpty = false := rfl

theorem count_eq (t : LLRBNode κ α) : t.count = t.toList.length := by
  induction t with
  | empty => rfl
  | node k v c l r ihl ihr =>
    rw [count, ihl, ihr, toList_node, List.length_append, List.length_cons]
    omega

@[simp] theorem toList_withColor (t : LLRBNode κ α) (c : Color) : (t.withColor c).toList = t.toList := by
  cases t <;> rfl

@[simp] theorem toList_flipColor (t : LLRBNode κ α) : t.flipColor.toList = t.toList := by
  cases t <;> rfl

@[simp] theorem toList_colorFlip (t : LLRBNode κ α) : t.colorFlip.toList = t.toList := by
  cases t <;> simp [colorFlip]

theorem toList_rotateLeft {t : LLRBNode κ α} (h : t.right.isRed = true) : t.rotateLeft.toList = t.toList := by
  cases t with
  | empty => cases h
  | node k v c l r =>
    cases r with
    | empty => cases h
    | node rk rv rc rl rr => simp [rotateLeft]

theorem toList_rotateRight {t : LLRBNode κ α} (h : t.left ≠ empty) : t.rotateRight.toList = t.toList := by
  cases t with
  | empty => exact absurd rfl h
  | node k v c l r =>
    cases l with
    | empty => exact absurd rfl h
    | node lk lv lc ll lr => simp [rotateRight]

theorem ne_empty_of_isRed {t : LLRBNode κ α} (h : t.isRed = true) : t ≠ empty := by
  rintro rfl
  cases h

theorem ne_empty_of_isRed_left {t : LLRBNode κ α} (h : t.left.isRed = true) : t ≠ empty := by
  rintro rfl
  cases h

theorem toList_fixUp (t : LLRBNode κ α) : t.fixUp.toList = t.toList := by
  unfold fixUp
  extract_lets m n
  have hm : m.toList = t.toList := by
    by_cases h : t.right.isRed ∧ ¬t.left.isRed
    · rw [show m = t.rotateLeft from if_pos h, toList_rotateLeft h.1]
    · rw [show m = t from if_neg h]
  have hn : n.toList = m.toList := by
    by_cases h : m.left.isRed ∧ m.left.left.isRed
    · rw [show n = m.rotateRight from if_pos h, toList_rotateRight (ne_empty_of_isRed h.1)]
    · rw [show n = m from if_neg h]
  split
  · rw [toList_colorFlip, hn, hm]
  · rw [hn, hm]

theorem toList_moveRedLeft (t : LLRBNode κ α) : t.moveRedLeft.toList = t.toList := by
  unfold moveRedLeft
  extract_lets n
  have hn : n.toList = t.toList := toList_colorFlip t
  split
  · rename_i h
    rw [← hn]
    rcases n with _ | ⟨k, v, c, l, _ | ⟨rk, rv, rc, _ | ⟨k', v', c', l', r'⟩, rr⟩⟩
    · cases h
    · cases h
    · cases h
    · simp [rotateRight, rotateLeft, withRight]
  · exact hn

theorem toList_moveRedRight (t : LLRBNode κ α) : t.moveRedRight.toList = t.toList := by
  unfold moveRedRight
  extract_lets n
  have hn : n.toList = t.toList := toList_colorFlip t
  split
  · rename_i h
    rw [toList_colorFlip, toList_rotateRight (ne_empty_of_isRed_left h), hn]
  · exact hn

theorem count_left_lt {t u : LLRBNode κ α} (h : u.toList = t.toList) (ht : t ≠ empty) : u.left.count < t.count := by
  rw [count_eq, count_eq, ← h]
  cases u with
  | empty =>
    cases t with
    | empty => exact absurd rfl ht
    | node k v c l r => simp at h
  | node k v c l r =>
    rw [left_node, toList_node, List.length_append, List.length_cons]
    omega

theorem ne_empty_of_toList {t u : LLRBNode κ α} (h : u.toList = t.toList) (ht : t ≠ empty) : u ≠ empty := by
  rintro rfl
  cases t with
  | empty => exact ht rfl
  | node k v c l r => simp at h

theorem count_right_lt {t u : LLRBNode κ α} (h : u.toList = t.toList) (ht : t ≠ empty) : u.right.count < t.count := by
  rw [count_eq, count_eq, ← h]
  cases u with
  | empty =>
    cases t with
    | empty => exact absurd rfl ht
    | node k v c l r => simp at h
  | node k v c l r =>
    rw [right_node, toList_node, List.length_append, List.length_cons]
    omega

/-! ## Going down to remove -/

/-- Before going left: the left child, or its left child, is made red. -/
def prepareLeft (t : LLRBNode κ α) : LLRBNode κ α :=
  if ¬t.left.isEmpty ∧ ¬t.left.isRed ∧ ¬t.left.left.isRed then t.moveRedLeft else t

/-- Before going right: the right child, or its left child, is made red. -/
def prepareRight (t : LLRBNode κ α) : LLRBNode κ α :=
  let n := if t.left.isRed then t.rotateRight else t
  if ¬n.right.isEmpty ∧ ¬n.right.isRed ∧ ¬n.right.left.isRed then n.moveRedRight else n

theorem toList_prepareLeft (t : LLRBNode κ α) : t.prepareLeft.toList = t.toList := by
  unfold prepareLeft
  split
  · exact toList_moveRedLeft t
  · rfl

theorem toList_prepareRight (t : LLRBNode κ α) : t.prepareRight.toList = t.toList := by
  unfold prepareRight
  extract_lets n
  have hn : n.toList = t.toList := by
    by_cases h : t.left.isRed
    · rw [show n = t.rotateRight from if_pos h, toList_rotateRight (ne_empty_of_isRed h)]
    · rw [show n = t from if_neg h]
  split
  · rw [toList_moveRedRight, hn]
  · exact hn

def removeMin (t : LLRBNode κ α) : LLRBNode κ α :=
  if _h : t.left.isEmpty then empty
  else (t.prepareLeft.withLeft (removeMin t.prepareLeft.left)).fixUp
termination_by t.count
decreasing_by
  apply count_left_lt (toList_prepareLeft t)
  rintro rfl
  exact _h rfl

theorem count_withLeft_le {t l : LLRBNode κ α} (h : l.count ≤ t.left.count) : (t.withLeft l).count ≤ t.count := by
  cases t with
  | empty => exact Nat.le_refl _
  | node k v c l' r =>
    simp only [withLeft, count, left_node] at h ⊢
    omega

theorem count_removeMin_le (t : LLRBNode κ α) : t.removeMin.count ≤ t.count := by
  fun_induction removeMin t with
  | case1 t h => exact Nat.zero_le _
  | case2 t h ih =>
    rw [count_eq, toList_fixUp, ← count_eq, count_eq t, ← toList_prepareLeft t, ← count_eq]
    exact count_withLeft_le ih

section Order

variable [LinearOrder κ]

def insertKey (aKey : κ) (aValue : α) : LLRBNode κ α → LLRBNode κ α
  | empty => node aKey aValue .red empty empty
  | node k v c l r =>
    if aKey < k then (node k v c (l.insertKey aKey aValue) r).fixUp
    else if aKey = k then (node k aValue c l r).fixUp
    else (node k v c l (r.insertKey aKey aValue)).fixUp

/-- A removed entry with a right subtree is replaced by the least entry of it, and the key is looked for there too. -/
def remove (aKey : κ) (t : LLRBNode κ α) : LLRBNode κ α :=
  match _ht : t with
  | empty => empty
  | node key _ _ _ _ =>
    if aKey < key then (t.prepareLeft.withLeft (remove aKey t.prepareLeft.left)).fixUp
    else
      match _hn : t.prepareRight with
      | empty => empty
      | node k v c l r =>
        if aKey = k then
          match r.min with
          | none => empty
          | some smallest => (node smallest.1 smallest.2 c l (remove aKey r.removeMin)).fixUp
        else (node k v c l (remove aKey r)).fixUp
termination_by t.count
decreasing_by
  all_goals have hne : t ≠ empty := by rw [_ht]; simp
  · exact _ht ▸ count_left_lt (toList_prepareLeft t) hne
  all_goals have hr := count_right_lt (toList_prepareRight t) hne
  all_goals rw [_hn, right_node] at hr
  · exact _ht ▸ Nat.lt_of_le_of_lt (count_removeMin_le r) hr
  · exact _ht ▸ hr

end Order

end LLRBNode

end ChatApp
