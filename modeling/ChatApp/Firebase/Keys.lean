import ChatApp.Firebase.Reference
import Mathlib.Data.Int.Order.Basic
import Mathlib.Data.List.Lex
import Mathlib.Data.Prod.Lex

/-!
# The order of keys

`FUtilities.compareKey:toKey:`, by which the children of a node are sorted: keys that are 32-bit integers come first, by
value and then by length, and the other keys follow in the order of their UTF-16 units. The names `minName` and
`maxName` are recognised by their address and stand before and after all keys.

- `unichars_injective`: a string is its UTF-16 units;
- `compareKey_compares`: `compareKey` compares the ranks of two keys (`rank`);
- `rank_eq_iff`: different keys have one rank exactly when they are zeros and a minus sign with zeros, of one length
  (`ZeroClash`);
- `compareKey_order`: so `compareKey` is a total order but for these;
- `Name`: keys without them, whose linear order is `compareKey` (`Name.cmp_eq`).
-/

namespace ChatApp

/-! ## UTF-16 -/

/-- The UTF-16 units of a character. -/
def utf16 (c : Char) : List Nat :=
  if c.toNat < 0x10000 then [c.toNat]
  else [0xD800 + (c.toNat - 0x10000) / 0x400, 0xDC00 + (c.toNat - 0x10000) % 0x400]

/-- The `unichar`s of an `NSString`. -/
def unichars (s : String) : List Nat := s.toList.flatMap utf16

/-- No character is a surrogate. -/
theorem char_scalar (c : Char) : c.toNat < 0xD800 ∨ 0xDFFF < c.toNat ∧ c.toNat < 0x110000 := by
  rcases c.valid with h | h
  · exact Or.inl h
  · exact Or.inr h

/-- The first character can be read off the units. -/
theorem utf16_append_inj {c d : Char} {xs ys : List Nat} (h : utf16 c ++ xs = utf16 d ++ ys) : c = d ∧ xs = ys := by
  have hc := char_scalar c
  have hd := char_scalar d
  unfold utf16 at h
  split at h
  · split at h
    · simp only [List.cons_append, List.nil_append, List.cons.injEq] at h
      exact ⟨Char.toNat_inj.1 h.1, h.2⟩
    · simp only [List.cons_append, List.nil_append, List.cons.injEq] at h
      omega
  · split at h
    · simp only [List.cons_append, List.nil_append, List.cons.injEq] at h
      omega
    · simp only [List.cons_append, List.nil_append, List.cons.injEq] at h
      refine ⟨Char.toNat_inj.1 ?_, h.2.2⟩
      omega

theorem utf16_ne_nil (c : Char) : utf16 c ≠ [] := by
  unfold utf16
  split <;> simp

theorem flatMap_utf16_inj {cs ds : List Char} (h : cs.flatMap utf16 = ds.flatMap utf16) : cs = ds := by
  induction cs generalizing ds with
  | nil =>
    cases ds with
    | nil => rfl
    | cons d ds => simp [utf16_ne_nil] at h
  | cons c cs ih =>
    cases ds with
    | nil => simp [utf16_ne_nil] at h
    | cons d ds =>
      rw [List.flatMap_cons, List.flatMap_cons] at h
      obtain ⟨rfl, hrest⟩ := utf16_append_inj h
      rw [ih hrest]

/-- **A string is its UTF-16 units.** -/
theorem unichars_injective : Function.Injective unichars := by
  intro s t h
  exact String.toList_injective (flatMap_utf16_inj h)

/-- An ASCII string has its characters as units. -/
theorem unichars_of_ascii {s : String} (h : ∀ c ∈ s.toList, c.toNat < 0x10000) :
    unichars s = s.toList.map Char.toNat := by
  unfold unichars
  generalize s.toList = cs at h
  induction cs with
  | nil => rfl
  | cons c cs ih =>
    obtain ⟨hc, hcs⟩ := List.forall_mem_cons.1 h
    rw [List.flatMap_cons, List.map_cons, ih hcs, utf16, if_pos hc]
    rfl

/-! ## Comparing keys -/

/-- A key, or one of the two names that are known by their address. -/
inductive Key
  | minName
  | name (s : String)
  | maxName
  deriving DecidableEq

namespace FUtilities

/-- The value of decimal digits; `none` at any other unit. -/
def parseDigits : List Nat → Nat → Option Nat
  | [], value => some value
  | c :: cs, value => if c < 48 ∨ 57 < c then none else parseDigits cs (value * 10 + (c - 48))

/-- `INTEGER_32_MIN <= value <= INTEGER_32_MAX`. -/
def inInteger32 (value : Int) : Option Int :=
  if value < -2147483648 ∨ 2147483647 < value then none else some value

def tryParseStringToInt (str : List Nat) : Option Int :=
  if 11 < str.length ∨ str.length = 0 then none
  else match str with
    | 45 :: digits => if digits = [] then none else (parseDigits digits 0).bind fun v => inInteger32 (-(v : Int))
    | digits => (parseDigits digits 0).bind fun v => inInteger32 v

/-- `compare:options:NSLiteralSearch`: unit by unit. -/
def compareLiteral : List Nat → List Nat → Ordering
  | [], [] => .eq
  | [], _ :: _ => .lt
  | _ :: _, [] => .gt
  | a :: as, b :: bs => if a < b then .lt else if b < a then .gt else compareLiteral as bs

/-- Two keys that are no special names. -/
def compareNames (a b : List Nat) : Ordering :=
  match tryParseStringToInt a, tryParseStringToInt b with
  | some aAsInt, some bAsInt =>
    if bAsInt < aAsInt then .gt
    else if aAsInt < bAsInt then .lt
    else if b.length < a.length then .gt
    else if a.length < b.length then .lt
    else .eq
  | some _, none => .lt
  | none, some _ => .gt
  | none, none => compareLiteral a b

def compareKey (a b : Key) : Ordering :=
  if a = b then .eq
  else match a, b with
    | .minName, _ => .lt
    | _, .maxName => .lt
    | _, .minName => .gt
    | .maxName, _ => .gt
    | .name a, .name b => compareNames (unichars a) (unichars b)

end FUtilities

open FUtilities

/-! ## Ranks -/

/-- Where a key stands: its class, then value and length of an integer, then the units of the others. -/
def rankUnits (a : List Nat) : ℕ ×ₗ ℤ ×ₗ ℕ ×ₗ List ℕ :=
  match tryParseStringToInt a with
  | some i => toLex (1, toLex (i, toLex (a.length, [])))
  | none => toLex (2, toLex (0, toLex (0, a)))

def rank : Key → ℕ ×ₗ ℤ ×ₗ ℕ ×ₗ List ℕ
  | .minName => toLex (0, toLex (0, toLex (0, [])))
  | .name s => rankUnits (unichars s)
  | .maxName => toLex (3, toLex (0, toLex (0, [])))

theorem lex_lt_fst {β : Type} [LinearOrder β] {α : Type} [LinearOrder α] {a a' : α} (b b' : β) (h : a < a') :
    toLex (a, b) < toLex (a', b') :=
  Prod.Lex.toLex_lt_toLex.2 (Or.inl h)

theorem lex_lt_snd {β : Type} [LinearOrder β] {α : Type} [LinearOrder α] (a : α) {b b' : β} (h : b < b') :
    toLex (a, b) < toLex (a, b') :=
  Prod.Lex.toLex_lt_toLex.2 (Or.inr ⟨rfl, h⟩)

theorem compareLiteral_compares (a b : List Nat) : (compareLiteral a b).Compares a b := by
  induction a generalizing b with
  | nil =>
    cases b with
    | nil => rfl
    | cons y ys => exact List.nil_lt_cons y ys
  | cons x xs ih =>
    cases b with
    | nil => exact List.nil_lt_cons x xs
    | cons y ys =>
      unfold compareLiteral
      split
      · rename_i hlt
        exact List.cons_lt_cons_iff.2 (Or.inl hlt)
      · split
        · rename_i hlt
          exact List.cons_lt_cons_iff.2 (Or.inl hlt)
        · have hxy : x = y := by omega
          subst hxy
          have hrest := ih ys
          cases ho : compareLiteral xs ys with
          | lt =>
            rw [ho] at hrest
            exact List.cons_lt_cons_iff.2 (Or.inr ⟨rfl, hrest⟩)
          | eq =>
            rw [ho] at hrest
            exact congrArg _ hrest
          | gt =>
            rw [ho] at hrest
            exact List.cons_lt_cons_iff.2 (Or.inr ⟨rfl, hrest⟩)

theorem compareNames_compares (a b : List Nat) : (compareNames a b).Compares (rankUnits a) (rankUnits b) := by
  unfold compareNames rankUnits
  cases tryParseStringToInt a with
  | some i =>
    cases tryParseStringToInt b with
    | some j =>
      dsimp only
      split
      · rename_i hlt
        exact lex_lt_snd _ (lex_lt_fst _ _ hlt)
      · split
        · rename_i hlt
          exact lex_lt_snd _ (lex_lt_fst _ _ hlt)
        · have hij : i = j := by omega
          subst hij
          split
          · rename_i hlt
            exact lex_lt_snd _ (lex_lt_snd _ (lex_lt_fst _ _ hlt))
          · split
            · rename_i hlt
              exact lex_lt_snd _ (lex_lt_snd _ (lex_lt_fst _ _ hlt))
            · have hlen : a.length = b.length := by omega
              simp only [Ordering.Compares, hlen]
    | none => exact lex_lt_fst _ _ (by omega)
  | none =>
    cases tryParseStringToInt b with
    | some j => exact lex_lt_fst _ _ (by omega)
    | none =>
      have hlit := compareLiteral_compares a b
      dsimp only
      cases ho : compareLiteral a b with
      | lt =>
        rw [ho] at hlit
        exact lex_lt_snd _ (lex_lt_snd _ (lex_lt_snd _ hlit))
      | eq =>
        rw [ho] at hlit
        have he : a = b := hlit
        simp only [Ordering.Compares, he]
      | gt =>
        rw [ho] at hlit
        exact lex_lt_snd _ (lex_lt_snd _ (lex_lt_snd _ hlit))

/-- The class of a key between the special names. -/
theorem rankUnits_between (a : List Nat) : rank .minName < rankUnits a ∧ rankUnits a < rank .maxName := by
  unfold rankUnits
  cases tryParseStringToInt a with
  | some i => exact ⟨lex_lt_fst _ _ (by omega), lex_lt_fst _ _ (by omega)⟩
  | none => exact ⟨lex_lt_fst _ _ (by omega), lex_lt_fst _ _ (by omega)⟩

/-- **`compareKey` compares ranks.** -/
theorem compareKey_compares (a b : Key) : (compareKey a b).Compares (rank a) (rank b) := by
  unfold compareKey
  split
  · rename_i he
    rw [he]
    exact rfl
  · rename_i hne
    cases a with
    | minName =>
      cases b with
      | minName => exact absurd rfl hne
      | name t => exact (rankUnits_between _).1
      | maxName => exact (rankUnits_between []).1.trans (rankUnits_between []).2
    | name s =>
      cases b with
      | minName => exact (rankUnits_between _).1
      | name t => exact compareNames_compares (unichars s) (unichars t)
      | maxName => exact (rankUnits_between _).2
    | maxName =>
      cases b with
      | minName => exact (rankUnits_between []).1.trans (rankUnits_between []).2
      | name t => exact (rankUnits_between _).2
      | maxName => exact absurd rfl hne

/-! ## Keys of one rank -/

/-- Digits of one length and one value are the same. -/
theorem parseDigits_inj {a b : List Nat} (hlen : a.length = b.length) {u w v : Nat} (ha : parseDigits a u = some v)
    (hb : parseDigits b w = some v) : u = w ∧ a = b := by
  induction a generalizing b u w with
  | nil =>
    cases List.length_eq_zero_iff.1 hlen.symm
    rw [parseDigits, Option.some.injEq] at ha hb
    exact ⟨ha.trans hb.symm, rfl⟩
  | cons c cs ih =>
    cases b with
    | nil => cases hlen
    | cons d ds =>
      unfold parseDigits at ha hb
      split at ha
      · cases ha
      · split at hb
        · cases hb
        · obtain ⟨hval, rfl⟩ := ih (Nat.succ.inj hlen) ha hb
          have hcd : c = d ∧ u = w := by omega
          rw [hcd.1]
          exact ⟨hcd.2, rfl⟩

theorem parseDigits_zeros (n : Nat) : parseDigits (List.replicate n 48) 0 = some 0 := by
  induction n with
  | zero => rfl
  | succ n ih =>
    rw [List.replicate_succ, parseDigits]
    exact ih

theorem parseDigits_eq_zero {a : List Nat} (h : parseDigits a 0 = some 0) : a = List.replicate a.length 48 :=
  (parseDigits_inj List.length_replicate.symm h (parseDigits_zeros _)).2

/-- What `tryParseStringToInt` accepts. -/
theorem tryParse_cases {a : List Nat} {i : Int} (h : tryParseStringToInt a = some i) : a.length ≤ 11 ∧
    ((∃ digits v, a = 45 :: digits ∧ digits ≠ [] ∧ parseDigits digits 0 = some v ∧ i = -(v : Int)) ∨
      ∃ v, parseDigits a 0 = some v ∧ i = (v : Int)) := by
  have hrange : ∀ {x : Int}, inInteger32 x = some i → i = x := by
    intro x hx
    unfold inInteger32 at hx
    split at hx
    · cases hx
    · exact (Option.some.inj hx).symm
  unfold tryParseStringToInt at h
  split at h
  · cases h
  · refine ⟨by omega, ?_⟩
    split at h
    · split at h
      · cases h
      · rename_i hne
        obtain ⟨v, hv, hx⟩ := Option.bind_eq_some_iff.1 h
        exact Or.inl ⟨_, v, rfl, hne, hv, hrange hx⟩
    · obtain ⟨v, hv, hx⟩ := Option.bind_eq_some_iff.1 h
      exact Or.inr ⟨v, hv, hrange hx⟩

/-- A minus sign with zeros and as many zeros: both stand for 0, with one length. -/
def ClashUnits (a b : List Nat) : Prop :=
  ∃ n, 1 ≤ n ∧ n ≤ 10 ∧ a = 45 :: List.replicate n 48 ∧ b = List.replicate (n + 1) 48

theorem ClashUnits.rank_eq {a b : List Nat} (h : ClashUnits a b) : rankUnits a = rankUnits b := by
  obtain ⟨n, h1, h10, rfl, rfl⟩ := h
  have hneg : tryParseStringToInt (45 :: List.replicate n 48) = some 0 := by
    have hne : List.replicate n 48 ≠ [] := by
      intro he
      have := congrArg List.length he
      rw [List.length_replicate, List.length_nil] at this
      omega
    unfold tryParseStringToInt
    rw [if_neg (by rw [List.length_cons, List.length_replicate]; omega)]
    simp only [hne, if_false, parseDigits_zeros]
    rfl
  have hpos : tryParseStringToInt (List.replicate (n + 1) 48) = some 0 := by
    have hdigits := parseDigits_zeros (n + 1)
    unfold tryParseStringToInt
    rw [if_neg (by rw [List.length_replicate]; omega)]
    rw [List.replicate_succ] at hdigits ⊢
    simp only [hdigits]
    rfl
  unfold rankUnits
  rw [hneg, hpos]
  simp only [List.length_cons, List.length_replicate]

/-- The sign and the digits of an integer of one length. -/
theorem eq_of_tryParse {a b : List Nat} {i : Int} (ha : tryParseStringToInt a = some i)
    (hb : tryParseStringToInt b = some i) (hlen : a.length = b.length) : a = b ∨ ClashUnits a b ∨ ClashUnits b a := by
  have hclash : ∀ {digits x : List Nat}, (45 :: digits).length = x.length → digits ≠ [] → x.length ≤ 11 →
      parseDigits digits 0 = some 0 → parseDigits x 0 = some 0 → ClashUnits (45 :: digits) x := by
    intro digits x hl hne h11 hd hx
    have hpos : 0 < digits.length := List.length_pos_iff.2 hne
    rw [List.length_cons] at hl
    refine ⟨digits.length, hpos, by omega, ?_, ?_⟩
    · rw [← parseDigits_eq_zero hd]
    · rw [hl]
      exact parseDigits_eq_zero hx
  obtain ⟨ha11, ha⟩ := tryParse_cases ha
  obtain ⟨hb11, hb⟩ := tryParse_cases hb
  rcases ha with ⟨digits, v, rfl, hne, hv, hi⟩ | ⟨v, hv, hi⟩
  · rcases hb with ⟨digits', w, rfl, hne', hw, hj⟩ | ⟨w, hw, hj⟩
    · have hvw : v = w := by omega
      subst hvw
      rw [(parseDigits_inj (Nat.succ.inj hlen) hv hw).2]
      exact Or.inl rfl
    · have hvw : v = 0 ∧ w = 0 := by omega
      rw [hvw.1] at hv
      rw [hvw.2] at hw
      exact Or.inr (Or.inl (hclash hlen hne hb11 hv hw))
  · rcases hb with ⟨digits', w, rfl, hne', hw, hj⟩ | ⟨w, hw, hj⟩
    · have hvw : v = 0 ∧ w = 0 := by omega
      rw [hvw.1] at hv
      rw [hvw.2] at hw
      exact Or.inr (Or.inr (hclash hlen.symm hne' ha11 hw hv))
    · have hvw : v = w := by omega
      subst hvw
      exact Or.inl (parseDigits_inj hlen hv hw).2

theorem rankUnits_eq_iff {a b : List Nat} :
    rankUnits a = rankUnits b ↔ a = b ∨ ClashUnits a b ∨ ClashUnits b a := by
  constructor
  · intro h
    unfold rankUnits at h
    cases ha : tryParseStringToInt a with
    | some i =>
      cases hb : tryParseStringToInt b with
      | some j =>
        simp only [ha, hb, toLex_inj, Prod.mk.injEq] at h
        have hij : i = j := h.2.1
        subst hij
        exact eq_of_tryParse ha hb h.2.2.1
      | none => simp [ha, hb] at h
    | none =>
      cases hb : tryParseStringToInt b with
      | some j => simp [ha, hb] at h
      | none =>
        simp only [ha, hb, toLex_inj, Prod.mk.injEq] at h
        exact Or.inl h.2.2.2
  · rintro (rfl | h | h)
    · rfl
    · exact h.rank_eq
    · exact h.rank_eq.symm

/-- A minus sign with `n` zeros, against `n + 1` zeros. -/
def ZeroClash (a b : Key) : Prop := ∃ n, 1 ≤ n ∧ n ≤ 10 ∧
  a = .name (String.ofList ('-' :: List.replicate n '0')) ∧ b = .name (String.ofList (List.replicate (n + 1) '0'))

theorem unichars_zeros (n : Nat) : unichars (String.ofList (List.replicate n '0')) = List.replicate n 48 := by
  rw [unichars_of_ascii]
  · simp
  · intro c hc
    rw [String.toList_ofList, List.mem_replicate] at hc
    rw [hc.2]
    decide

theorem unichars_minusZeros (n : Nat) :
    unichars (String.ofList ('-' :: List.replicate n '0')) = 45 :: List.replicate n 48 := by
  have hzeros := unichars_zeros n
  unfold unichars at hzeros ⊢
  rw [String.toList_ofList] at hzeros ⊢
  rw [List.flatMap_cons, hzeros]
  rfl

theorem clash_name_iff {s t : String} : ZeroClash (.name s) (.name t) ↔ ClashUnits (unichars s) (unichars t) := by
  constructor
  · rintro ⟨n, h1, h10, hs, ht⟩
    cases hs
    cases ht
    exact ⟨n, h1, h10, unichars_minusZeros n, unichars_zeros (n + 1)⟩
  · rintro ⟨n, h1, h10, hs, ht⟩
    rw [← unichars_minusZeros] at hs
    rw [← unichars_zeros] at ht
    rw [unichars_injective hs, unichars_injective ht]
    exact ⟨n, h1, h10, rfl, rfl⟩

theorem ZeroClash.rank_eq {a b : Key} (h : ZeroClash a b) : rank a = rank b := by
  obtain ⟨n, h1, h10, rfl, rfl⟩ := h
  exact ClashUnits.rank_eq (clash_name_iff.1 ⟨n, h1, h10, rfl, rfl⟩)

/-- **Keys of one rank** are the same, or clash as zeros. -/
theorem rank_eq_iff {a b : Key} : rank a = rank b ↔ a = b ∨ ZeroClash a b ∨ ZeroClash b a := by
  constructor
  · intro h
    by_cases hab : a = b
    · exact Or.inl hab
    · have hcmp : compareKey a b = .eq := (compareKey_compares a b).eq_eq.2 h
      unfold compareKey at hcmp
      rw [if_neg hab] at hcmp
      cases a with
      | minName => cases hcmp
      | name s =>
        cases b with
        | minName => cases hcmp
        | name t =>
          rw [clash_name_iff, clash_name_iff, Key.name.injEq, ← unichars_injective.eq_iff]
          exact rankUnits_eq_iff.1 h
        | maxName => cases hcmp
      | maxName => cases b <;> first | exact absurd rfl hab | cases hcmp
  · rintro (rfl | h | h)
    · rfl
    · exact h.rank_eq
    · exact h.rank_eq.symm

/-! ## The order -/

/-- **The order of keys**: `compareKey` is antisymmetric, transitive and total, and takes different keys for the same
exactly when one is a minus sign with zeros and the other as many zeros. -/
theorem compareKey_order : (∀ a b, compareKey b a = (compareKey a b).swap) ∧
    (∀ a b c, compareKey a b ≠ .gt → compareKey b c ≠ .gt → compareKey a c ≠ .gt) ∧
    ∀ a b, compareKey a b = .eq ↔ a = b ∨ ZeroClash a b ∨ ZeroClash b a := by
  refine ⟨?_, ?_, ?_⟩
  · intro a b
    rw [← (compareKey_compares b a).cmp_eq, ← (compareKey_compares a b).cmp_eq, cmp_swap]
  · intro a b c hab hbc
    rw [(compareKey_compares _ _).ne_gt] at hab hbc ⊢
    exact hab.trans hbc
  · intro a b
    rw [(compareKey_compares a b).eq_eq, rank_eq_iff]

example : compareKey (.name "00") (.name "-0") = .eq := by decide

/-- A key that is no minus sign with zeros. Those are valid keys, too, but `compareKey` takes each for another key. -/
structure Name where
  val : String
  plain : ∀ n, 1 ≤ n → n ≤ 10 → val ≠ String.ofList ('-' :: List.replicate n '0')

namespace Name

theorem rank_injective : Function.Injective fun k : Name => rank (.name k.val) := by
  intro a b h
  have hnot : ∀ {a b : Name}, ¬ZeroClash (.name a.val) (.name b.val) := by
    rintro a b ⟨n, h1, h10, ha, -⟩
    exact a.plain n h1 h10 (Key.name.inj ha)
  rcases rank_eq_iff.1 h with he | hc | hc
  · cases a
    cases b
    cases he
    rfl
  · exact absurd hc hnot
  · exact absurd hc hnot

instance : LinearOrder Name := LinearOrder.lift' (fun k => rank (.name k.val)) rank_injective

/-- **The linear order of these keys is `compareKey`.** -/
theorem cmp_eq (a b : Name) : cmp a b = compareKey (.name a.val) (.name b.val) := by
  have hcmp : cmp a b = cmp (rank (.name a.val)) (rank (.name b.val)) := rfl
  rw [hcmp, (compareKey_compares _ _).cmp_eq]

end Name

end ChatApp
