import ChatApp.Firebase.LLRB.Balance
import ChatApp.Firebase.Node

/-!
# Building a tree from a dictionary

`FTreeSortedDictionary.fromDictionary`: the sorted entries become a tree in one go. Their number is written with the
digits 1 and 2 (`Base1_2List`), and each digit gives one or two pennants, a node with a full tree on its right. The
pennants hang on each other's left, the greatest first.

- `buildBalancedTree_eq`: a stretch of `2 ^ m - 1` entries makes a full tree of `m` black levels;
- `rootFrom12List_eq`: the pennants take up the entries exactly, and the tree is balanced;
- `fromDictionary_eq`: so the call never raises on a dictionary, and its tree has the dictionary's entries in order.
-/

namespace ChatApp

open Lib (Assoc.Sorted)

namespace LLRBNode

variable {κ α : Type}

/-- `keys[index]`, with its value. -/
def entryAt (entries : List (κ × α)) (index : Nat) : Except Fault (κ × α) :=
  match entries[index]? with
  | some e => .ok e
  | none => .error .indexOutOfRange

def buildBalancedTree (entries : List (κ × α)) (startIndex length : Nat) : Except Fault (LLRBNode κ α) :=
  let bounded := Nat.min (entries.length - startIndex) length
  if _h : bounded = 0 then .ok empty
  else if bounded = 1 then do
    let e ← entryAt entries startIndex
    return node e.1 e.2 .black empty empty
  else do
    let middle := bounded / 2
    let left ← buildBalancedTree entries startIndex middle
    let right ← buildBalancedTree entries (startIndex + middle + 1) middle
    let e ← entryAt entries (startIndex + middle)
    return node e.1 e.2 .black left right
termination_by length
decreasing_by
  all_goals
    have hle : bounded ≤ length := Nat.min_le_right _ _
    omega

/-- A pennant of `chunkSize` entries that end before `index`, without its left child: its entry and its right child. -/
def buildPennant (entries : List (κ × α)) (index chunkSize : Nat) : Except Fault ((κ × α) × LLRBNode κ α) := do
  let e ← entryAt entries (index - chunkSize)
  let childTree ← buildBalancedTree entries (index - chunkSize + 1) (chunkSize - 1)
  return (e, childTree)

/-- The loop over the digits that are left, the lowest `m` bits of `bits`: a set bit is the digit 2. -/
def rootFrom12List (entries : List (κ × α)) (bits : Nat) : Nat → Nat → Except Fault (LLRBNode κ α)
  | 0, _ => .ok empty
  | m + 1, index => do
    let chunkSize := 2 ^ m
    let black ← buildPennant entries index chunkSize
    if bits.testBit m then
      let red ← buildPennant entries (index - chunkSize) chunkSize
      let rest ← rootFrom12List entries bits m (index - chunkSize - chunkSize)
      return node black.1.1 black.1.2 .black (node red.1.1 red.1.2 .red rest red.2) black.2
    else
      let rest ← rootFrom12List entries bits m (index - chunkSize)
      return node black.1.1 black.1.2 .black rest black.2

/-- `base1_2List_new`: the number of digits and their bits. -/
def base12List (length : Nat) : Nat × Nat :=
  let count := (length + 1).log2
  (count, (length + 1) % 2 ^ count)

section Order

variable [LinearOrder κ]

/-- Two keys next to each other that are not in order. -/
def hasSameOrdering : List (κ × α) → Bool
  | [] => false
  | [_] => false
  | c :: d :: es => decide (¬c.1 < d.1) || hasSameOrdering (d :: es)

/-- `[FTreeSortedDictionary fromDictionary:withComparator:]`, the dictionary given by its entries. -/
def fromDictionary (dictionary : List (κ × α)) : Except Fault (LLRBNode κ α) :=
  let sortedKeyList := dictionary.mergeSort fun c d => decide (c.1 ≤ d.1)
  if hasSameOrdering sortedKeyList then
    .error (.exception "NSInvalidArgumentException"
      "Can't create FImmutableSortedDictionary with keys with same ordering!")
  else
    let (count, bits) := base12List sortedKeyList.length
    rootFrom12List sortedKeyList bits count sortedKeyList.length

end Order

/-! ## Full trees -/

variable {entries : List (κ × α)}

theorem entryAt_eq {i : Nat} {e : κ × α} (h : entries[i]? = some e) : entryAt entries i = .ok e := by
  rw [entryAt, h]

/-- A stretch of entries, cut at its middle. -/
theorem take_drop_middle {i a b : Nat} {e : κ × α} (h : entries[i + a]? = some e) :
    (entries.drop i).take (a + 1 + b) = (entries.drop i).take a ++ e :: (entries.drop (i + a + 1)).take b := by
  obtain ⟨hlt, he⟩ := List.getElem?_eq_some_iff.1 h
  have hdrop : entries.drop (i + a) = e :: entries.drop (i + a + 1) := by
    rw [List.drop_eq_getElem_cons hlt, he]
  rw [Nat.add_assoc, List.take_add, List.drop_drop, hdrop, Nat.add_comm 1 b, List.take_succ_cons]

theorem buildBalancedTree_zero (i : Nat) : buildBalancedTree entries i 0 = .ok empty := by
  rw [buildBalancedTree]
  exact dif_pos (Nat.min_zero _)

/-- A stretch of `2 ^ m - 1` entries makes a full tree of `m` black levels. -/
theorem buildBalancedTree_eq (entries : List (κ × α)) (m : Nat) {i : Nat} (h : i + (2 ^ m - 1) ≤ entries.length) :
    ∃ t, buildBalancedTree entries i (2 ^ m - 1) = .ok t ∧ Balanced t .black m ∧
      t.toList = (entries.drop i).take (2 ^ m - 1) := by
  induction m generalizing i with
  | zero => exact ⟨empty, buildBalancedTree_zero i, .empty, by simp⟩
  | succ m ih =>
    have hpow : 0 < 2 ^ m := Nat.two_pow_pos m
    have hlen : 2 ^ (m + 1) - 1 = 2 ^ m - 1 + 1 + (2 ^ m - 1) := by omega
    have hbound : Nat.min (entries.length - i) (2 ^ (m + 1) - 1) = 2 ^ (m + 1) - 1 := Nat.min_eq_right (by omega)
    obtain ⟨e, he⟩ : ∃ e, entries[i + (2 ^ m - 1)]? = some e := ⟨_, List.getElem?_eq_getElem (by omega)⟩
    obtain ⟨l, hl, hbl, htl⟩ := ih (i := i) (by omega)
    obtain ⟨r, hr, hbr, htr⟩ := ih (i := i + (2 ^ m - 1) + 1) (by omega)
    refine ⟨node e.1 e.2 .black l r, ?_, .black hbl hbr, by rw [toList_node, htl, htr, hlen, take_drop_middle he]⟩
    rw [buildBalancedTree]
    simp only [hbound]
    rw [dif_neg (by omega)]
    split
    · -- a single entry
      have hm : 2 ^ m - 1 = 0 := by omega
      rw [hm] at hl hr he
      rw [Nat.add_zero] at he
      rw [buildBalancedTree_zero] at hl hr
      cases hl
      cases hr
      rw [entryAt_eq he]
      rfl
    · have hhalf : (2 ^ (m + 1) - 1) / 2 = 2 ^ m - 1 := by omega
      simp only [hhalf, hl, hr, entryAt_eq he, bind, Except.bind]
      rfl

/-! ## Pennants -/

theorem buildPennant_eq (m index : Nat) (h : index ≤ entries.length) (hm : 2 ^ m ≤ index) :
    ∃ e t, buildPennant entries index (2 ^ m) = .ok (e, t) ∧ Balanced t .black m ∧
      entries.take index = entries.take (index - 2 ^ m) ++ e :: t.toList := by
  have hpow : 0 < 2 ^ m := Nat.two_pow_pos m
  obtain ⟨e, he⟩ : ∃ e, entries[index - 2 ^ m]? = some e := ⟨_, List.getElem?_eq_getElem (by omega)⟩
  obtain ⟨t, ht, hb, htl⟩ := buildBalancedTree_eq entries m (i := index - 2 ^ m + 1) (by omega)
  refine ⟨e, t, ?_, hb, ?_⟩
  · rw [buildPennant, entryAt_eq he, ht]
    rfl
  · have hcut := take_drop_middle (i := 0) (a := index - 2 ^ m) (b := 2 ^ m - 1) (e := e) (by simpa using he)
    have hlen : index - 2 ^ m + 1 + (2 ^ m - 1) = index := by omega
    rw [hlen, List.drop_zero, Nat.zero_add] at hcut
    rw [hcut, htl]

/-- What the lowest digits take up. -/
theorem low_digits (bits m : Nat) : 2 ^ (m + 1) - 1 + bits % 2 ^ (m + 1) =
    2 ^ m - 1 + bits % 2 ^ m + 2 ^ m + (if bits.testBit m then 2 ^ m else 0) := by
  have hpow : 0 < 2 ^ m := Nat.two_pow_pos m
  rw [Nat.mod_pow_succ, Nat.testBit_eq_decide_div_mod_eq]
  rcases Nat.mod_two_eq_zero_or_one (bits / 2 ^ m) with h | h
  · rw [h]
    simp only [Nat.zero_ne_one, decide_false, Bool.false_eq_true, if_false]
    omega
  · rw [h]
    simp only [decide_true, if_true]
    omega

/-- **The pennants of the lowest `m` digits** take up the entries below `index` exactly. -/
theorem rootFrom12List_eq (entries : List (κ × α)) (bits m : Nat) {index : Nat} (h : index ≤ entries.length)
    (hi : index = 2 ^ m - 1 + bits % 2 ^ m) :
    ∃ t, rootFrom12List entries bits m index = .ok t ∧ Balanced t .black m ∧ t.toList = entries.take index := by
  induction m generalizing index with
  | zero =>
    have hzero : index = 0 := by rw [hi, Nat.pow_zero, Nat.mod_one]
    exact ⟨empty, rfl, .empty, by rw [hzero]; rfl⟩
  | succ m ih =>
    rw [low_digits] at hi
    obtain ⟨e, r, he, hbr, htr⟩ := buildPennant_eq m index h (by omega)
    cases hbit : bits.testBit m with
    | false =>
      simp only [hbit, Bool.false_eq_true, if_false] at hi
      obtain ⟨t, ht, hbt, htt⟩ := @ih (index - 2 ^ m) (by omega) (by omega)
      refine ⟨node e.1 e.2 .black t r, ?_, .black hbt hbr, by rw [toList_node, htt, htr]⟩
      simp only [rootFrom12List, he, hbit, ht, bind, Except.bind]
      rfl
    | true =>
      simp only [hbit, if_true] at hi
      obtain ⟨e', r', he', hbr', htr'⟩ :=
        buildPennant_eq m (index - 2 ^ m) (Nat.le_trans (Nat.sub_le _ _) h) (by omega)
      obtain ⟨t, ht, hbt, htt⟩ := @ih (index - 2 ^ m - 2 ^ m) (by omega) (by omega)
      refine ⟨node e.1 e.2 .black (node e'.1 e'.2 .red t r') r, ?_, .black (.red hbt hbr') hbr, ?_⟩
      · simp only [rootFrom12List, he, hbit, he', ht, bind, Except.bind]
        rfl
      · rw [toList_node, toList_node, htt, htr, htr']

/-! ## The whole dictionary -/

section Order

variable [LinearOrder κ]

theorem hasSameOrdering_eq_false {es : List (κ × α)} (h : Assoc.Sorted es) : hasSameOrdering es = false := by
  fun_induction hasSameOrdering es with
  | case1 => rfl
  | case2 => rfl
  | case3 c d es ih =>
    obtain ⟨hc, hes⟩ := Lib.Assoc.sorted_cons.1 h
    simp [hc d List.mem_cons_self, ih hes]

/-- Sorting the entries of a dictionary, whose keys are distinct. -/
theorem sorted_mergeSort {dictionary : List (κ × α)} (h : (dictionary.map Prod.fst).Nodup) :
    Assoc.Sorted (dictionary.mergeSort fun c d => decide (c.1 ≤ d.1)) := by
  have hle : (dictionary.mergeSort fun c d => decide (c.1 ≤ d.1)).Pairwise fun c d => decide (c.1 ≤ d.1) = true := by
    apply List.pairwise_mergeSort
    · intro a b c hab hbc
      exact decide_eq_true ((of_decide_eq_true hab).trans (of_decide_eq_true hbc))
    · intro a b
      simpa using le_total a.1 b.1
  have hnd : ((dictionary.mergeSort fun c d => decide (c.1 ≤ d.1)).map Prod.fst).Nodup :=
    ((List.mergeSort_perm _ _).map _).nodup_iff.2 h
  rw [List.Nodup, List.pairwise_map] at hnd
  exact (hle.and hnd).imp fun ⟨hcd, hne⟩ => lt_of_le_of_ne (of_decide_eq_true hcd) hne

/-- **Building never raises**: the tree is balanced and has the entries of the dictionary in order. -/
theorem fromDictionary_eq {dictionary : List (κ × α)} (h : (dictionary.map Prod.fst).Nodup) :
    ∃ t n, fromDictionary dictionary = .ok t ∧ Balanced t .black n ∧ Assoc.Sorted t.toList ∧
      t.toList.Perm dictionary := by
  have hsort := sorted_mergeSort h
  unfold fromDictionary
  extract_lets es
  have hlog : 2 ^ (es.length + 1).log2 ≤ es.length + 1 := Nat.log2_self_le (by omega)
  have hlt : es.length + 1 < 2 ^ ((es.length + 1).log2 + 1) := Nat.lt_log2_self
  have hmod : (es.length + 1) % 2 ^ (es.length + 1).log2 = es.length + 1 - 2 ^ (es.length + 1).log2 := by
    rw [Nat.mod_eq_sub_mod hlog, Nat.mod_eq_of_lt (by omega)]
  obtain ⟨t, ht, hb, htl⟩ := rootFrom12List_eq es ((es.length + 1) % 2 ^ (es.length + 1).log2)
    (es.length + 1).log2 (Nat.le_refl _) (by rw [Nat.mod_mod, hmod]; omega)
  rw [List.take_length] at htl
  refine ⟨t, _, ?_, hb, htl ▸ hsort, htl ▸ List.mergeSort_perm _ _⟩
  rw [hasSameOrdering_eq_false hsort, base12List]
  exact ht

end Order

end LLRBNode

end ChatApp
