import ChatApp.Firebase.Keys
import ChatApp.Lib.Runs
import Mathlib.Tactic.Ring

/-!
# Push ids

`FNextPushId.get:`, the keys of `childByAutoId`: eight characters for the time in milliseconds and twelve for a number,
drawn at random when the time is new and counted up when it is that of the call before. The 64 characters are in the
order of their codes, so that the keys are ordered as the numbers they stand for.

- `value_timeDigits`, `value_increment`: what the digits of the time and of the counter stand for;
- `get_eq`: a call at a time that is not negative returns;
- `compareKey_pushId`: two ids compare as their numbers;
- `keyBefore_nextState_iff`: a call comes after the one before unless it finds the counter exhausted;
- `run_pushIds`: ids made at times that do not decrease are increasing keys exactly when no call does so.
-/

namespace ChatApp

open FUtilities
open Lib.Runs

/-! ## Digits -/

/-- The number of digits to the base 64, the highest first. -/
def value (ds : List Nat) : Nat := ds.foldl (fun v d => v * 64 + d) 0

theorem foldl_value (ds : List Nat) (v : Nat) :
    ds.foldl (fun v d => v * 64 + d) v = v * 64 ^ ds.length + value ds := by
  induction ds generalizing v with
  | nil => simp [value]
  | cons d ds ih =>
    have hd := ih (0 * 64 + d)
    rw [value, List.foldl_cons, List.foldl_cons, ih, hd, List.length_cons, Nat.pow_succ]
    ring

theorem value_cons (d : Nat) (ds : List Nat) : value (d :: ds) = d * 64 ^ ds.length + value ds := by
  have h := foldl_value ds (0 * 64 + d)
  rw [value, List.foldl_cons, h]
  ring

theorem value_append (ds es : List Nat) : value (ds ++ es) = value ds * 64 ^ es.length + value es := by
  rw [value, List.foldl_append, foldl_value]
  rfl

theorem value_lt {ds : List Nat} (h : ∀ d ∈ ds, d < 64) : value ds < 64 ^ ds.length := by
  induction ds with
  | nil => exact Nat.one_pos
  | cons d ds ih =>
    obtain ⟨hd, hds⟩ := List.forall_mem_cons.1 h
    have hlt := ih hds
    have hmul : d * 64 ^ ds.length ≤ 63 * 64 ^ ds.length := Nat.mul_le_mul_right _ (by omega)
    rw [value_cons, List.length_cons, Nat.pow_succ]
    omega

/-- Digits of one length are compared as their numbers, also after a strictly monotone map. -/
theorem map_lt_of_value_lt {f : Nat → Nat} (hf : ∀ {d e}, d < e → e < 64 → f d < f e) {ds es : List Nat}
    (hlen : ds.length = es.length) (he : ∀ e ∈ es, e < 64) (h : value ds < value es) : ds.map f < es.map f := by
  induction ds generalizing es with
  | nil =>
    cases es with
    | nil => exact absurd h (Nat.lt_irrefl _)
    | cons e es => cases hlen
  | cons d ds ih =>
    cases es with
    | nil => cases hlen
    | cons e es =>
      obtain ⟨he64, hes⟩ := List.forall_mem_cons.1 he
      have hl : ds.length = es.length := Nat.succ.inj hlen
      rw [value_cons, value_cons, hl] at h
      rw [List.map_cons, List.map_cons, List.cons_lt_cons_iff]
      rcases Nat.lt_trichotomy d e with hde | hde | hde
      · exact Or.inl (hf hde he64)
      · subst hde
        exact Or.inr ⟨rfl, ih hl hes (by omega)⟩
      · have hlt := value_lt hes
        have hmul : (e + 1) * 64 ^ es.length ≤ d * 64 ^ es.length := Nat.mul_le_mul_right _ hde
        rw [Nat.add_mul, Nat.one_mul] at hmul
        omega

/-! ## The ids -/

def PUSH_CHARS : List Char := "-0123456789ABCDEFGHIJKLMNOPQRSTUVWXYZ_abcdefghijklmnopqrstuvwxyz".toList

/-- What `FNextPushId` remembers between calls. -/
structure PushState where
  lastPushTime : Int
  lastRandChars : List Nat
  length_eq : lastRandChars.length = 12
  digits : ∀ d ∈ lastRandChars, d < 64

namespace FNextPushId

/-- The static variables at the start. -/
def init : PushState := ⟨0, List.replicate 12 0, List.length_replicate, by simp⟩

/-- `[PUSH_CHARS characterAtIndex:index]`. -/
def characterAtIndex (index : Int) : Except Fault Char :=
  match if index < 0 then none else PUSH_CHARS[index.toNat]? with
  | some c => .ok c
  | none => .error (.exception "NSRangeException" "characterAtIndex:")

/-- The loop over the characters of the time, from the last one on; `%` and `/` truncate. -/
def timeStampChars : Nat → Int → List Char → Except Fault (List Char)
  | 0, _, chars => .ok chars
  | i + 1, now, chars => do
    let c ← characterAtIndex (now.tmod 64)
    timeStampChars i (now.tdiv 64) (c :: chars)

/-- The counter plus one, last digit first. When all digits are 63, the code increments the `int` in front of its array,
and the digits start again at 0. -/
def carry : List Nat → List Nat
  | [] => []
  | d :: ds => if d = 63 then 0 :: carry ds else (d + 1) :: ds

def increment (lastRandChars : List Nat) : List Nat := (carry lastRandChars.reverse).reverse

theorem length_carry (ds : List Nat) : (carry ds).length = ds.length := by
  induction ds with
  | nil => rfl
  | cons d ds ih =>
    unfold carry
    split
    · rw [List.length_cons, List.length_cons, ih]
    · rfl

theorem carry_lt {ds : List Nat} (hd : ∀ d ∈ ds, d < 64) : ∀ e ∈ carry ds, e < 64 := by
  induction ds with
  | nil => exact hd
  | cons d ds ih =>
    obtain ⟨hlt, hds⟩ := List.forall_mem_cons.1 hd
    unfold carry
    split
    · exact List.forall_mem_cons.2 ⟨by omega, ih hds⟩
    · exact List.forall_mem_cons.2 ⟨by omega, hds⟩

/-- The random digits of the next id: new ones, or the counter plus one. -/
def nextState (s : PushState) (now : Int) (random : Fin 12 → Nat) : PushState :=
  if now = s.lastPushTime then
    ⟨now, increment s.lastRandChars,
      by rw [increment, List.length_reverse, length_carry, List.length_reverse, s.length_eq],
      fun d hd => carry_lt (fun e he => s.digits e (List.mem_reverse.1 he)) d (List.mem_reverse.1 hd)⟩
  else ⟨now, List.ofFn fun i => random i % 64, by simp, by
    intro d hd
    obtain ⟨i, rfl⟩ := List.mem_ofFn.1 hd
    exact Nat.mod_lt _ (by decide)⟩

def get (s : PushState) (now : Int) (random : Fin 12 → Nat) : Except Fault (String × PushState) := do
  let timeStamp ← timeStampChars 8 now []
  let s' := nextState s now random
  let randChars ← s'.lastRandChars.mapM fun d : Nat => characterAtIndex (d : Int)
  return (String.ofList (timeStamp ++ randChars), s')

/-! ## The characters -/

def pushChar (d : Nat) : Char := PUSH_CHARS.getD d '-'

/-- The key of 20 digits. -/
def pushId (ds : List Nat) : String := String.ofList (ds.map pushChar)

theorem pushChars_codes : PUSH_CHARS.map Char.toNat =
    45 :: (List.range' 48 10 ++ List.range' 65 26 ++ 95 :: List.range' 97 26) := by
  decide +kernel

theorem pushChars_increase : (PUSH_CHARS.map Char.toNat).Pairwise (· < ·) := by
  rw [← List.isChain_iff_pairwise, pushChars_codes]
  decide +kernel

theorem pushChars_length : PUSH_CHARS.length = 64 := by decide +kernel

theorem invalidKeyCharacters_codes :
    FValidation.kInvalidKeyCharacters.toList.map Char.toNat = [91, 93, 46, 35, 36, 47] := by
  decide +kernel

theorem pushChars_valid {c : Char} (h : c ∈ PUSH_CHARS) :
    c.toNat < 0x10000 ∧ c ∉ FValidation.kInvalidKeyCharacters.toList := by
  have hcodes : ∀ x ∈ PUSH_CHARS.map Char.toNat, x < 0x10000 ∧ x ∉ [91, 93, 46, 35, 36, 47] := by
    rw [pushChars_codes]
    decide +kernel
  obtain ⟨hlt, hnot⟩ := hcodes c.toNat (List.mem_map_of_mem h)
  refine ⟨hlt, fun hc => hnot ?_⟩
  rw [← invalidKeyCharacters_codes]
  exact List.mem_map_of_mem hc

theorem pushChar_eq {d : Nat} (h : d < 64) : PUSH_CHARS[d]? = some (pushChar d) := by
  have hlt : d < PUSH_CHARS.length := pushChars_length ▸ h
  rw [pushChar, List.getD_eq_getElem?_getD, List.getElem?_eq_getElem hlt]
  rfl

theorem pushChar_mem {d : Nat} (h : d < 64) : pushChar d ∈ PUSH_CHARS := List.mem_of_getElem? (pushChar_eq h)

/-- The characters are in the order of their codes. -/
theorem pushChar_lt {d e : Nat} (hde : d < e) (he : e < 64) : (pushChar d).toNat < (pushChar e).toNat := by
  have hd := pushChar_eq (hde.trans he)
  have he' := pushChar_eq he
  obtain ⟨hd64, hdc⟩ := List.getElem?_eq_some_iff.1 hd
  obtain ⟨he64, hec⟩ := List.getElem?_eq_some_iff.1 he'
  have hlt := List.pairwise_iff_getElem.1 pushChars_increase d e (by simpa using hd64) (by simpa using he64) hde
  rw [List.getElem_map, List.getElem_map, hdc, hec] at hlt
  exact hlt

theorem characterAtIndex_eq {d : Nat} (h : d < 64) : characterAtIndex d = .ok (pushChar d) := by
  have hneg : ¬(d : Int) < 0 := by omega
  rw [characterAtIndex, if_neg hneg, Int.toNat_natCast, pushChar_eq h]

/-! ## The time -/

/-- The digits of the time, from the last one on. -/
def timeDigits : Nat → Nat → List Nat → List Nat
  | 0, _, ds => ds
  | i + 1, now, ds => timeDigits i (now / 64) (now % 64 :: ds)

theorem timeStampChars_eq (i now : Nat) (ds : List Nat) :
    timeStampChars i now (ds.map pushChar) = .ok ((timeDigits i now ds).map pushChar) := by
  induction i generalizing now ds with
  | zero => rfl
  | succ i ih =>
    have hmod : (now : Int).tmod 64 = ((now % 64 : Nat) : Int) := by
      rw [Int.tmod_eq_emod_of_nonneg (by omega)]
      omega
    have hdiv : (now : Int).tdiv 64 = ((now / 64 : Nat) : Int) := by
      rw [Int.tdiv_eq_ediv_of_nonneg (by omega)]
      omega
    rw [timeStampChars, hmod, hdiv, characterAtIndex_eq (Nat.mod_lt _ (by decide))]
    exact ih (now / 64) (now % 64 :: ds)

theorem length_timeDigits (i now : Nat) (ds : List Nat) : (timeDigits i now ds).length = i + ds.length := by
  induction i generalizing now ds with
  | zero => simp [timeDigits]
  | succ i ih =>
    rw [timeDigits, ih, List.length_cons]
    omega

theorem timeDigits_lt {i now : Nat} {ds : List Nat} (h : ∀ d ∈ ds, d < 64) : ∀ d ∈ timeDigits i now ds, d < 64 := by
  induction i generalizing now ds with
  | zero => exact h
  | succ i ih =>
    apply ih
    exact List.forall_mem_cons.2 ⟨Nat.mod_lt _ (by decide), h⟩

/-- **The digits of the time stand for it**, up to their number. -/
theorem value_timeDigits (i now : Nat) (ds : List Nat) :
    value (timeDigits i now ds) = now % 64 ^ i * 64 ^ ds.length + value ds := by
  induction i generalizing now ds with
  | zero => simp [timeDigits, Nat.mod_one]
  | succ i ih =>
    have hmod : now % 64 ^ (i + 1) = now % 64 + 64 * (now / 64 % 64 ^ i) := by
      rw [Nat.pow_succ', Nat.mod_mul]
    rw [timeDigits, ih, value_cons, List.length_cons, hmod, Nat.pow_succ]
    ring

/-! ## The counter -/

theorem value_reverse_cons (d : Nat) (ds : List Nat) : value (d :: ds).reverse = value ds.reverse * 64 + d := by
  rw [List.reverse_cons, value_append]
  simp [value]

theorem value_carry {ds : List Nat} (h : ∃ d ∈ ds, d ≠ 63) : value (carry ds).reverse = value ds.reverse + 1 := by
  induction ds with
  | nil => simp at h
  | cons d ds ih =>
    unfold carry
    split
    · rename_i hd
      have hrest : ∃ d ∈ ds, d ≠ 63 := by simpa [hd] using h
      rw [value_reverse_cons, value_reverse_cons, ih hrest, hd]
      omega
    · rw [value_reverse_cons, value_reverse_cons]
      omega

/-- **The counter is counted up**, unless it is exhausted. -/
theorem value_increment {ds : List Nat} (h : ∃ d ∈ ds, d ≠ 63) : value (increment ds) = value ds + 1 := by
  have hval : value (carry ds.reverse).reverse = value ds.reverse.reverse + 1 := value_carry (by simpa using h)
  rwa [List.reverse_reverse] at hval

/-! ## The order of the ids -/

@[simp] theorem nextState_lastPushTime (s : PushState) (now : Int) (random : Fin 12 → Nat) :
    (nextState s now random).lastPushTime = now := by
  unfold nextState
  split <;> rfl

theorem nextState_lastRandChars {s : PushState} {now : Int} (h : now = s.lastPushTime) (random : Fin 12 → Nat) :
    (nextState s now random).lastRandChars = increment s.lastRandChars := by
  rw [nextState, if_pos h]

theorem mapM_characterAtIndex {ds : List Nat} (h : ∀ d ∈ ds, d < 64) :
    (ds.mapM fun d : Nat => characterAtIndex (d : Int)) = .ok (ds.map pushChar) := by
  induction ds with
  | nil => rfl
  | cons d ds ih =>
    obtain ⟨hd, hds⟩ := List.forall_mem_cons.1 h
    rw [List.mapM_cons, characterAtIndex_eq hd, ih hds]
    rfl

/-- The digits of the id that was made last. -/
def idDigits (s : PushState) : List Nat := timeDigits 8 s.lastPushTime.toNat [] ++ s.lastRandChars

/-- **A call returns**, and its id is made of the digits of its time and those of the new counter. -/
theorem get_eq (s : PushState) {now : Int} (h : 0 ≤ now) (random : Fin 12 → Nat) :
    get s now random = .ok (pushId (idDigits (nextState s now random)), nextState s now random) := by
  obtain ⟨n, rfl⟩ : ∃ n : Nat, now = n := ⟨now.toNat, by omega⟩
  have htime := timeStampChars_eq 8 n []
  rw [List.map_nil] at htime
  rw [get, htime]
  show (((nextState s n random).lastRandChars.mapM fun d : Nat => characterAtIndex (d : Int)) >>= _) = _
  rw [mapM_characterAtIndex (nextState s n random).digits]
  show Except.ok (String.ofList _, nextState s n random) = Except.ok (pushId _, nextState s n random)
  rw [pushId, idDigits, List.map_append, nextState_lastPushTime, Int.toNat_natCast]

theorem unichars_pushId {ds : List Nat} (h : ∀ d ∈ ds, d < 64) :
    unichars (pushId ds) = ds.map fun d => (pushChar d).toNat := by
  rw [unichars_of_ascii]
  · rw [pushId, String.toList_ofList, List.map_map]
    rfl
  · intro c hc
    rw [pushId, String.toList_ofList] at hc
    obtain ⟨d, hd, rfl⟩ := List.mem_map.1 hc
    exact (pushChars_valid (pushChar_mem (h d hd))).1

/-- More than eleven characters are no integer. -/
theorem rank_of_long {s : String} (h : 11 < (unichars s).length) :
    rank (.name s) = toLex (2, toLex (0, toLex (0, unichars s))) := by
  have hnone : tryParseStringToInt (unichars s) = none := by
    unfold tryParseStringToInt
    rw [if_pos (Or.inl h)]
  rw [rank, rankUnits, hnone]

/-- **Ids compare as their numbers.** -/
theorem compareKey_pushId {ds es : List Nat} (hd : ∀ d ∈ ds, d < 64) (he : ∀ e ∈ es, e < 64) (hdl : ds.length = 20)
    (hel : es.length = 20) (h : value ds < value es) :
    compareKey (.name (pushId ds)) (.name (pushId es)) = .lt := by
  rw [(compareKey_compares _ _).eq_lt]
  rw [rank_of_long, rank_of_long]
  · apply lex_lt_snd
    apply lex_lt_snd
    apply lex_lt_snd
    rw [unichars_pushId hd, unichars_pushId he]
    exact map_lt_of_value_lt (fun hde he64 => pushChar_lt hde he64) (hdl.trans hel.symm) he h
  · rw [unichars_pushId he, List.length_map]
    omega
  · rw [unichars_pushId hd, List.length_map]
    omega

theorem isValidKey_pushId {ds : List Nat} (h : ∀ d ∈ ds, d < 64) (hne : ds ≠ []) :
    FValidation.isValidKey (pushId ds) = true := by
  rw [FValidation.isValidKey, FValidation.avoids_eq_true, pushId]
  constructor
  · intro hempty
    have hlist := congrArg String.toList hempty
    rw [String.toList_ofList] at hlist
    exact hne (List.map_eq_nil_iff.1 hlist)
  · intro c hc
    rw [String.toList_ofList] at hc
    obtain ⟨d, hd, rfl⟩ := List.mem_map.1 hc
    exact (pushChars_valid (pushChar_mem (h d hd))).2

/-! ## Runs -/

/-- A call: its time and its random numbers. -/
abbrev Call := Int × (Fin 12 → Nat)

/-- Calls one after the other. -/
def getAll : PushState → List Call → Except Fault (List String)
  | _, [] => .ok []
  | s, call :: calls => do
    let (name, s') ← get s call.1 call.2
    let names ← getAll s' calls
    return name :: names

/-- What a call leaves. -/
def step (s : PushState) (call : Call) : Option PushState := some (nextState s call.1 call.2)

/-- The call does not come in the millisecond of the call before with all digits of the counter at 63. -/
def Counts (s : PushState) (call : Call) : Prop := call.1 = s.lastPushTime → ∃ d ∈ s.lastRandChars, d ≠ 63

/-- The states after the calls. -/
def states : PushState → List Call → List PushState
  | _, [] => []
  | s, call :: calls => nextState s call.1 call.2 :: states (nextState s call.1 call.2) calls

theorem getAll_eq (s : PushState) {calls : List Call} (h : ∀ c ∈ calls, 0 ≤ c.1) :
    getAll s calls = .ok ((states s calls).map fun t => pushId (idDigits t)) := by
  induction calls generalizing s with
  | nil => rfl
  | cons call calls ih =>
    obtain ⟨hcall, hcalls⟩ := List.forall_mem_cons.1 h
    rw [getAll, get_eq s hcall]
    show (getAll (nextState s call.1 call.2) calls >>= _) = _
    rw [ih _ hcalls]
    rfl

/-- The states remember the times of the calls. -/
theorem states_times (s : PushState) (calls : List Call) :
    (states s calls).map PushState.lastPushTime = calls.map Prod.fst := by
  induction calls generalizing s with
  | nil => rfl
  | cons call calls ih => rw [states, List.map_cons, List.map_cons, ih, nextState_lastPushTime]

/-- The time of a state is one that eight digits can tell. -/
def InRange (s : PushState) : Prop := 0 ≤ s.lastPushTime ∧ s.lastPushTime < 64 ^ 8

theorem inRange_states {s : PushState} {calls : List Call} (h : ∀ c ∈ calls, 0 ≤ c.1 ∧ c.1 < 64 ^ 8) :
    ∀ t ∈ states s calls, InRange t := by
  intro t ht
  have htime : t.lastPushTime ∈ calls.map Prod.fst := states_times s calls ▸ List.mem_map_of_mem ht
  obtain ⟨c, hc, he⟩ := List.mem_map.1 htime
  rw [InRange, ← he]
  exact h c hc

/-- The number of the last id. -/
def PushState.number (s : PushState) : Nat := s.lastPushTime.toNat * 64 ^ 12 + value s.lastRandChars

theorem value_timeDigits_of_inRange {s : PushState} (h : InRange s) :
    value (timeDigits 8 s.lastPushTime.toNat []) = s.lastPushTime.toNat := by
  have hmod : s.lastPushTime.toNat % 64 ^ 8 = s.lastPushTime.toNat := Nat.mod_eq_of_lt (by
    have := h.1
    have := h.2
    omega)
  rw [value_timeDigits, hmod]
  simp [value]

theorem value_idDigits {s : PushState} (h : InRange s) : value (idDigits s) = PushState.number s := by
  rw [idDigits, value_append, value_timeDigits_of_inRange h, s.length_eq]
  rfl

/-- **A call makes the number greater** when it counts, and smaller when it does not. -/
theorem number_nextState {s : PushState} {call : Call} (h0 : 0 ≤ s.lastPushTime) (hle : s.lastPushTime ≤ call.1) :
    (Counts s call → PushState.number s < PushState.number (nextState s call.1 call.2)) ∧
    (¬Counts s call → PushState.number (nextState s call.1 call.2) < PushState.number s) := by
  have hlt : value s.lastRandChars < 64 ^ 12 := by
    have := value_lt s.digits
    rwa [s.length_eq] at this
  unfold PushState.number
  rw [nextState_lastPushTime]
  constructor
  · intro hcounts
    rcases eq_or_lt_of_le hle with he | hne
    · rw [nextState_lastRandChars he.symm, value_increment (hcounts he.symm), he]
      omega
    · have hmul : (s.lastPushTime.toNat + 1) * 64 ^ 12 ≤ call.1.toNat * 64 ^ 12 := Nat.mul_le_mul_right _ (by omega)
      rw [Nat.add_mul, Nat.one_mul] at hmul
      omega
  · intro hnot
    simp only [Counts, Classical.not_imp, not_exists, not_and, not_not] at hnot
    obtain ⟨he, hall⟩ := hnot
    have hdigits : s.lastRandChars = List.replicate 12 63 := List.eq_replicate_iff.2 ⟨s.length_eq, hall⟩
    have hzero : value (increment (List.replicate 12 63)) = 0 := by decide +kernel
    have hfull : 0 < value (List.replicate 12 63) := by decide +kernel
    rw [nextState_lastRandChars he, hdigits, hzero, he]
    omega

/-- Ids of digits. -/
structure IsPushId (ds : List Nat) : Prop where
  length_eq : ds.length = 20
  digits : ∀ d ∈ ds, d < 64

/-- The digits of the id of a call. -/
theorem isPushId_idDigits (s : PushState) : IsPushId (idDigits s) where
  length_eq := by rw [idDigits, List.length_append, length_timeDigits, s.length_eq, List.length_nil]
  digits := by
    intro d hd
    rcases List.mem_append.1 hd with hd | hd
    · exact timeDigits_lt (by simp) d hd
    · exact s.digits d hd

/-- The key of the id before another one is the smaller one. -/
def KeyBefore (s t : PushState) : Prop :=
  compareKey (.name (pushId (idDigits s))) (.name (pushId (idDigits t))) = .lt

theorem keyBefore_iff (s t : PushState) : KeyBefore s t ↔
    rank (.name (pushId (idDigits s))) < rank (.name (pushId (idDigits t))) :=
  (compareKey_compares _ _).eq_lt

theorem keyBefore_of_number_lt {s t : PushState} (hs : InRange s) (ht : InRange t)
    (h : PushState.number s < PushState.number t) : KeyBefore s t := by
  have hids := isPushId_idDigits s
  have hidt := isPushId_idDigits t
  refine compareKey_pushId hids.digits hidt.digits hids.length_eq hidt.length_eq ?_
  rwa [value_idDigits hs, value_idDigits ht]

/-- **One call**: its id comes after the one before exactly when it counts. -/
theorem keyBefore_nextState_iff {s : PushState} {call : Call} (hs : InRange s) (hle : s.lastPushTime ≤ call.1)
    (hlt : call.1 < 64 ^ 8) : KeyBefore s (nextState s call.1 call.2) ↔ Counts s call := by
  have hnext : InRange (nextState s call.1 call.2) := by
    rw [InRange, nextState_lastPushTime]
    exact ⟨hs.1.trans hle, hlt⟩
  obtain ⟨hup, hdown⟩ := number_nextState hs.1 hle
  constructor
  · intro hbefore
    by_contra hnot
    have hafter := keyBefore_of_number_lt hnext hs (hdown hnot)
    rw [keyBefore_iff] at hbefore hafter
    exact lt_asymm hbefore hafter
  · intro hcounts
    exact keyBefore_of_number_lt hs hnext (hup hcounts)

/-- **The ids of a run** increase exactly when all its calls count. -/
theorem states_increase_iff {s : PushState} {calls : List Call} (hs : InRange s)
    (hle : ∀ c ∈ calls, s.lastPushTime ≤ c.1) (hlt : ∀ c ∈ calls, c.1 < 64 ^ 8)
    (hsorted : (calls.map Prod.fst).Pairwise (· ≤ ·)) :
    (s :: states s calls).Pairwise KeyBefore ↔ Along step Counts s calls := by
  have htrans : IsTrans PushState KeyBefore := ⟨fun a b c hab hbc => by
    rw [keyBefore_iff] at hab hbc ⊢
    exact hab.trans hbc⟩
  rw [← List.isChain_iff_pairwise]
  induction calls generalizing s with
  | nil => simp [states, Along]
  | cons call calls ih =>
    obtain ⟨hle', hles⟩ := List.forall_mem_cons.1 hle
    obtain ⟨hlt', hlts⟩ := List.forall_mem_cons.1 hlt
    rw [List.map_cons, List.pairwise_cons] at hsorted
    have hnext : InRange (nextState s call.1 call.2) := by
      rw [InRange, nextState_lastPushTime]
      exact ⟨hs.1.trans hle', hlt'⟩
    have hrest := ih hnext (fun c hc => by
      rw [nextState_lastPushTime]
      exact hsorted.1 c.1 (List.mem_map_of_mem hc)) hlts hsorted.2
    rw [states, List.isChain_cons_cons, keyBefore_nextState_iff hs hle' hlt', Along]
    refine and_congr_right fun _ => hrest.trans ?_
    simp [step]

/-- The time that the first eight characters of an id stand for. -/
def timeOf (name : String) : Nat := value ((name.toList.take 8).map fun c => PUSH_CHARS.idxOf c)

theorem idxOf_pushChar {d : Nat} (h : d < 64) : PUSH_CHARS.idxOf (pushChar d) = d := by
  have hnd : PUSH_CHARS.Nodup := (List.pairwise_map.1 pushChars_increase).imp fun hlt he => hlt.ne (congrArg _ he)
  have hlt : d < PUSH_CHARS.length := pushChars_length ▸ h
  have hget : PUSH_CHARS[d] = pushChar d := by
    have hsome := pushChar_eq h
    rw [List.getElem?_eq_getElem hlt] at hsome
    exact Option.some.inj hsome
  rw [← hget]
  exact hnd.idxOf_getElem d hlt

theorem timeOf_pushId {ds : List Nat} (h : ∀ d ∈ ds, d < 64) : timeOf (pushId ds) = value (ds.take 8) := by
  rw [timeOf, pushId, String.toList_ofList, ← List.map_take, List.map_map]
  have hmap : (ds.take 8).map ((fun c => PUSH_CHARS.idxOf c) ∘ pushChar) = (ds.take 8).map id := by
    apply List.map_congr_left
    intro d hd
    exact idxOf_pushChar (h d (List.mem_of_mem_take hd))
  rw [hmap, List.map_id]

/-- The ids of a run from the start; its first call finds a counter of zeros. -/
theorem run_increase_iff {calls : List Call} (h0 : ∀ c ∈ calls, 0 ≤ c.1 ∧ c.1 < 64 ^ 8)
    (hs : (calls.map Prod.fst).Pairwise (· ≤ ·)) :
    (states init calls).Pairwise KeyBefore ↔ Along step Counts init calls := by
  cases calls with
  | nil => simp [states, Along]
  | cons call calls =>
    have hfirst : Counts init call := fun _ => ⟨0, by decide, by decide⟩
    obtain ⟨hcall, hcalls⟩ := List.forall_mem_cons.1 h0
    rw [List.map_cons, List.pairwise_cons] at hs
    have hnext : InRange (nextState init call.1 call.2) := by
      rw [InRange, nextState_lastPushTime]
      exact hcall
    have hrest := states_increase_iff hnext (fun c hc => by
      rw [nextState_lastPushTime]
      exact hs.1 c.1 (List.mem_map_of_mem hc)) (fun c hc => (hcalls c hc).2) hs.2
    rw [Along]
    simp only [step, Option.some.injEq, forall_eq', hfirst, true_and]
    exact hrest

/-- An id is one component of a path. -/
theorem child_pushId {ds : List Nat} (h : IsPushId ds) {r : Ref} (hr : r.path ≠ []) :
    r.child (pushId ds) = .ok ⟨r.path ++ [pushId ds]⟩ := by
  have hvalid : FValidation.isValidKey (pushId ds) = true := by
    apply isValidKey_pushId h.digits
    rintro rfl
    cases h.length_eq
  rw [Ref.child_eq_ok hr, FPath.pieces_of_isValidKey hvalid]
  exact ⟨FValidation.isValidPathString_of_isValidKey hvalid, rfl⟩

/-- Each id tells the time of its call. -/
theorem timeOf_idDigits {t : PushState} (h : InRange t) : timeOf (pushId (idDigits t)) = t.lastPushTime.toNat := by
  have htake : (idDigits t).take 8 = timeDigits 8 t.lastPushTime.toNat [] := List.take_left' (length_timeDigits 8 _ [])
  rw [timeOf_pushId (isPushId_idDigits t).digits, htake, value_timeDigits_of_inRange h]

theorem states_toNat (s : PushState) (calls : List Call) :
    (states s calls).map (fun t => t.lastPushTime.toNat) = calls.map fun c => c.1.toNat := by
  have htimes := congrArg (List.map Int.toNat) (states_times s calls)
  rw [List.map_map, List.map_map] at htimes
  exact htimes

/-- **Push ids are made in the order of the keys.** At times that do not decrease and are below `64 ^ 8` every call
returns, and the ids are increasing keys exactly when no call finds the counter of its millisecond exhausted. Each id
has 20 characters, is appended as one component below a reference that is not the root, and tells its time. -/
theorem run_pushIds {calls : List Call} (h0 : ∀ c ∈ calls, 0 ≤ c.1 ∧ c.1 < 64 ^ 8)
    (hs : (calls.map Prod.fst).Pairwise (· ≤ ·)) : ∃ names, getAll init calls = .ok names ∧
    ((names.Pairwise fun a b => compareKey (.name a) (.name b) = .lt) ↔ Along step Counts init calls) ∧
    (∀ name ∈ names, name.length = 20 ∧ ∀ r : Ref, r.path ≠ [] → r.child name = .ok ⟨r.path ++ [name]⟩) ∧
    names.map timeOf = calls.map fun c => c.1.toNat := by
  refine ⟨_, getAll_eq init fun c hc => (h0 c hc).1, ?_, ?_, ?_⟩
  · rw [List.pairwise_map]
    exact run_increase_iff h0 hs
  · intro name hname
    obtain ⟨t, -, rfl⟩ := List.mem_map.1 hname
    have hid := isPushId_idDigits t
    refine ⟨?_, fun r hr => child_pushId hid hr⟩
    rw [pushId, String.length_ofList, List.length_map, hid.length_eq]
  · rw [List.map_map, ← states_toNat init calls]
    apply List.map_congr_left
    intro t ht
    exact timeOf_idDigits (inRange_states h0 t ht)

/-- Two ids of one millisecond and one of the next. -/
theorem run_pushIds_three : ∃ names, getAll init [(1571000000500, fun _ => 7), (1571000000500, fun _ => 7),
      (1571000000501, fun _ => 0)] = .ok names ∧
    names.Pairwise fun a b => compareKey (.name a) (.name b) = .lt := by
  obtain ⟨names, hrun, hiff, -⟩ := @run_pushIds [(1571000000500, fun _ => 7), (1571000000500, fun _ => 7),
    (1571000000501, fun _ => 0)] (by decide) (by decide)
  refine ⟨names, hrun, hiff.2 ?_⟩
  simp only [Along, step, Option.some.injEq, forall_eq', and_true]
  refine ⟨fun _ => ⟨0, by decide, by decide⟩, fun _ => ⟨7, by decide, by decide⟩, fun h => ?_⟩
  exact absurd h (by decide)

end FNextPushId

end ChatApp
