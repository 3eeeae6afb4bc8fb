import ChatApp.Firebase.Reference
import ChatApp.Lib.Assoc
import ChatApp.Lib.Leaves
import ChatApp.Lib.Returns
import Mathlib.Tactic.IntervalCases

/-!
# Values in and out of the database

A value that a program stores is turned into a node by `FSnapshotUtilities.nodeFrom`, and the value of a snapshot is
made from a node by `valForExport`: dictionaries and arrays become dictionaries of children, and a dictionary whose keys
are integers comes back as an array when at least half of it is filled. Priorities are left out. Which characters are
decimal digits, and what the digits of other scripts than ASCII's stand for, is Foundation's (`Foundation`).

- `convertsToArray_keys`: `Node.asDict` and the export agree on what is an array;
- `eq_toString_of_integerKey`: an integer key of ASCII digits is the decimal text of its number;
- `stored_nodeFrom`: what is accepted has valid keys, leaves that fit, no empty children and not too many levels;
- `nodeFrom_valForExport`: so the value of an accepted node is accepted again and gives the same data, whether it was
  exported as an array or not, but for leaves that hold a null.
-/

namespace ChatApp

open Lib (Returns)

/-! ## Values -/

/-- What can be stored: `NSNull`, `NSString` and `NSNumber`, `NSDictionary`, `NSArray`. -/
inductive Value
  | null
  | leaf (l : Leaf)
  | dictionary (entries : List (String × Value))
  | array (values : List Value)

/-- The value of an `FLeafNode`. A `.value` of null and a server value are leaves, too. -/
inductive LeafValue
  | null
  | leaf (l : Leaf)
  | serverValue (op : Value)

/-- A node of stored values. -/
abbrev StoredNode := Lib.Tree String LeafValue

def kPayloadValue : String := ".value"
def kPayloadPriority : String := ".priority"
def kServerValueSubKey : String := ".sv"
def kFirebaseMaxObjectDepth : Nat := 1000

namespace FValidation

/-- At most 50 components of the path. -/
def pathString (path : List String) : String := ".".intercalate (path.take 50)

/-- The value of the leaf, `none` when the value is no leaf. -/
def isValidLeafValue (fn : String) (path : List String) : Value → Except Fault (Option LeafValue)
  | .null => .ok (some .null)
  | .leaf (.string s) =>
    if fits s then .ok (some (.leaf (.string s)))
    else .error (.exception "InvalidFirebaseData" ("(" ++ fn ++ ") String exceeds max size of " ++
      toString kFirebaseMaxLeafSize ++ " utf8 bytes: " ++ pathString path))
  | .leaf l => .ok (some (.leaf l))
  | .dictionary entries =>
    match entries.lookup kServerValueSubKey with
    | some op =>
      if 1 < entries.length then .error (.exception "InvalidFirebaseData"
        ("(" ++ fn ++ ") Cannot store other keys with server value keys." ++ pathString path ++ "."))
      else .ok (some (.serverValue op))
    | none => .ok none
  | .array _ => .ok none

def validDictionaryKey (fn : String) (path : List String) (key : String) : Except Fault Unit :=
  if key ≠ kPayloadPriority ∧ key ≠ kPayloadValue ∧ key ≠ kServerValueSubKey ∧ isValidKey key = false then
    .error (.exception "InvalidFirebaseData" ("(" ++ fn ++ ") Invalid key in object at path: " ++ pathString path ++
      ". Keys must be non-empty and cannot contain '/' '.' '#' '$' '[' or ']'"))
  else .ok ()

end FValidation

/-! ## From a value to a node -/

namespace FSnapshotUtilities

/-- `children[key] = childNode`, unless it is empty. -/
def storeChild (children : List (String × StoredNode)) (e : String × StoredNode) : List (String × StoredNode) :=
  if e.2.isEmpty then children else e :: children.filter fun c => c.1 ≠ e.1

/-- The node of the children that are not empty. -/
def nodeOf (entries : List (String × StoredNode)) : StoredNode := .ofChildren (entries.foldl storeChild [])

def depthFault (fn : String) (path : List String) : Fault := .exception "InvalidFirebaseData"
  ("(" ++ fn ++ ") Max object depth exceeded: " ++ ".".intercalate (path.take 100) ++ "...")

def leafTypeFault (fn type : String) : Fault := .exception "InvalidLeafValueType" ("(" ++ fn ++
  ") Invalid data type used with .value. Can only use NSString and NSNumber or be null. Found " ++ type ++ " instead.")

/-- The leaf of a `.value`. -/
def payloadLeaf (fn : String) (path : List String) (value : Value) : Except Fault StoredNode := do
  match ← FValidation.isValidLeafValue fn path value with
  | some l => return .leaf l
  | none => .error (leafTypeFault fn (match value with
      | .array _ => "NSArray"
      | _ => "NSDictionary"))

mutual

/-- `internalNodeFrom:priority:withValidationFrom:atDepth:path:`. -/
def nodeFrom (fn : String) : Value → Nat → List String → Except Fault StoredNode
  | .null, depth, path =>
    if kFirebaseMaxObjectDepth < depth then .error (depthFault fn path) else .ok .empty
  | .leaf l, depth, path =>
    if kFirebaseMaxObjectDepth < depth then .error (depthFault fn path) else payloadLeaf fn path (.leaf l)
  | .dictionary entries, depth, path =>
    if kFirebaseMaxObjectDepth < depth then .error (depthFault fn path)
    else match entries.lookup kPayloadValue with
      | some value => payloadLeaf fn path value
      | none => do
        match ← FValidation.isValidLeafValue fn path (.dictionary entries) with
        | some l => return .leaf l
        | none => return nodeOf (← dictionaryChildren fn entries (depth + 1) path)
  | .array values, depth, path =>
    if kFirebaseMaxObjectDepth < depth then .error (depthFault fn path)
    else do return nodeOf (← arrayChildren fn values 0 (depth + 1) path)

/-- The loop over a dictionary; keys of metadata are skipped. -/
def dictionaryChildren (fn : String) : List (String × Value) → Nat → List String →
    Except Fault (List (String × StoredNode))
  | [], _, _ => .ok []
  | e :: entries, depth, path => do
    FValidation.validDictionaryKey fn path e.1
    if e.1.toList.head? = some '.' then dictionaryChildren fn entries depth path
    else
      let childNode ← entryNode fn e depth path
      return (e.1, childNode) :: (← dictionaryChildren fn entries depth path)

def entryNode (fn : String) : String × Value → Nat → List String → Except Fault StoredNode
  | (key, value), depth, path => nodeFrom fn value depth (path ++ [key])

/-- The loop over an array, from the index `i` on. -/
def arrayChildren (fn : String) : List Value → Nat → Nat → List String → Except Fault (List (String × StoredNode))
  | [], _, _, _ => .ok []
  | value :: values, i, depth, path => do
    let childNode ← nodeFrom fn value depth (path ++ [toString i])
    return (toString i, childNode) :: (← arrayChildren fn values (i + 1) depth path)

end

end FSnapshotUtilities

/-! ## From a node to a value -/

def NSIntegerMax : Nat := 2 ^ 63 - 1

def INT_MAX : Nat := 2 ^ 31 - 1

/-- What `NSCharacterSet` and `NSScanner` do with digits: the set has the decimal digits of every script, the scanner
reads ASCII's and stops at `NSIntegerMax`. What it reads of the others is open. -/
structure Foundation where
  decimalDigitCharacterSet : Char → Bool
  scanInteger : String → Option Nat
  isDecimalDigit {c : Char} (h : c.isDigit = true) : decimalDigitCharacterSet c = true
  scanInteger_empty : scanInteger "" = none
  scanInteger_digits {s : String} (hne : s ≠ "") (h : s.toList.all Char.isDigit = true) :
    scanInteger s = some (min (Nat.ofDigitChars 10 s.toList 0) NSIntegerMax)

/-- `intForString:`. -/
def FUtilities.intForString (F : Foundation) (string : String) : Option Nat :=
  if string.toList.all F.decimalDigitCharacterSet then F.scanInteger string else none

def LeafValue.value : LeafValue → Value
  | .null => .null
  | .leaf l => .leaf l
  | .serverValue op => .dictionary [(kServerValueSubKey, op)]

namespace FChildrenNode

section Foundation

variable (F : Foundation)

/-- Leading zeroes that are not exactly "0" make a key a string. -/
def integerKey (key : String) : Option Nat :=
  if key.toList.head? = some '0' ∧ 1 < key.length then none else FUtilities.intForString F key

def maxKey (keys : List String) : Nat := (keys.filterMap (integerKey F)).foldl max 0

/-- All keys are integers and at least half of the array would be filled. -/
def convertsToArray (keys : List String) : Bool :=
  keys.all (fun key => (integerKey F key).isSome) && maxKey F keys < 2 * keys.length

/-- The array or the dictionary of the exported children. -/
def exported (obj : List (String × Value)) : Value :=
  if convertsToArray F (obj.map Prod.fst) then
    .array ((List.range (maxKey F (obj.map Prod.fst) + 1)).map fun i => (obj.lookup (toString i)).getD .null)
  else .dictionary obj

mutual

def valForExport : StoredNode → Value
  | .empty => .null
  | .leaf l => l.value
  | .node [] => .null
  | .node (c :: cs) => exported F (exportChild c :: exportChildren cs)

def exportChildren : List (String × StoredNode) → List (String × Value)
  | [] => []
  | c :: cs => exportChild c :: exportChildren cs

def exportChild : String × StoredNode → String × Value
  | (key, childNode) => (key, valForExport childNode)

end

end Foundation

end FChildrenNode

/-! ## Integer keys -/

theorem digitChar_of_isDigit {c : Char} (h : c.isDigit = true) :
    c.toNat - '0'.toNat < 10 ∧ (c.toNat - '0'.toNat).digitChar = c := by
  have hrange : 48 ≤ c.toNat ∧ c.toNat ≤ 57 := by
    simpa [Char.isDigit, UInt32.le_iff_toNat_le] using h
  have hc : c = Char.ofNat c.toNat := (Char.ofNat_toNat c).symm
  obtain ⟨hlo, hhi⟩ := hrange
  refine ⟨by simp; omega, ?_⟩
  generalize c.toNat = n at *
  subst hc
  interval_cases n <;> rfl

theorem ofDigitChars_concat (cs : List Char) (c : Char) :
    Nat.ofDigitChars 10 (cs ++ [c]) 0 = 10 * Nat.ofDigitChars 10 cs 0 + (c.toNat - '0'.toNat) := by
  rw [Nat.ofDigitChars_append, Nat.ofDigitChars_cons, Nat.ofDigitChars_nil]

/-- Digits without a leading zero stand for a positive number. -/
theorem ofDigitChars_pos {cs : List Char} (h : ∀ c ∈ cs, c.isDigit = true) (hne : cs ≠ [])
    (hhead : cs.head? ≠ some '0') : 0 < Nat.ofDigitChars 10 cs 0 := by
  induction cs using List.reverseRecOn with
  | nil => exact absurd rfl hne
  | append_singleton ds c ih =>
    rw [ofDigitChars_concat]
    cases ds with
    | nil =>
      have hc := digitChar_of_isDigit (h c (by simp))
      have hdigit : c.toNat - '0'.toNat ≠ 0 := by
        intro h0
        rw [h0] at hc
        exact hhead (by simp [← hc.2, Nat.digitChar])
      omega
    | cons d ds =>
      have := ih (fun x hx => h x (List.mem_append_left _ hx)) (by simp) (by simpa using hhead)
      omega

/-- Digits without a superfluous zero are the text of their number. -/
theorem toDigits_ofDigitChars {cs : List Char} (h : ∀ c ∈ cs, c.isDigit = true) (hne : cs ≠ [])
    (hhead : cs.head? = some '0' → cs = ['0']) : Nat.toDigits 10 (Nat.ofDigitChars 10 cs 0) = cs := by
  induction cs using List.reverseRecOn with
  | nil => exact absurd rfl hne
  | append_singleton ds c ih =>
    have hc := digitChar_of_isDigit (h c (by simp))
    rw [ofDigitChars_concat]
    cases ds with
    | nil =>
      rw [List.nil_append, Nat.ofDigitChars_nil, Nat.mul_zero, Nat.zero_add, Nat.toDigits_of_lt_base hc.1, hc.2]
    | cons d ds =>
      have hds : ∀ x ∈ d :: ds, x.isDigit = true := fun x hx => h x (List.mem_append_left _ hx)
      have hfirst : (d :: ds).head? ≠ some '0' := by
        intro h0
        have := hhead (by simpa using h0)
        simp at this
      rw [← Nat.toDigits_append_toDigits (by decide) (ofDigitChars_pos hds (by simp) hfirst) hc.1,
        ih hds (by simp) (fun h0 => absurd h0 hfirst), Nat.toDigits_of_lt_base hc.1, hc.2]

/-- An integer key is the decimal text of its number. -/
theorem integerKey_eq_some {key : String} {i : Nat} (h : integerKey key = some i) : key = toString i := by
  unfold integerKey intForString at h
  split at h
  · cases h
  · rename_i hzero
    split at h
    · rename_i hdigits
      cases h
      obtain ⟨hne, hall⟩ := hdigits
      rw [List.all_eq_true] at hall
      have hnil : key.toList ≠ [] := by simpa using hne
      have hhead : key.toList.head? = some '0' → key.toList = ['0'] := by
        intro h0
        rw [not_and, not_lt, ← String.length_toList] at hzero
        have hlen := hzero h0
        cases hk : key.toList with
        | nil => exact absurd hk hnil
        | cons c cs =>
          rw [hk] at h0 hlen
          simp at h0 hlen
          rw [h0, hlen]
      rw [← String.toList_inj, Nat.toString_eq_repr, Nat.toList_repr]
      exact (toDigits_ofDigitChars hall hnil hhead).symm
    · cases h

/-- The decimal digits among the characters are ASCII's. -/
def AsciiDigits (F : Foundation) (key : String) : Prop :=
  ∀ c ∈ key.toList, F.decimalDigitCharacterSet c = true → c.isDigit = true

section AsciiDigits

variable {F : Foundation} {key : String}

/-- Keys of ASCII digits are read as the casts of the app read them, up to the largest integer. -/
theorem intForString_of_asciiDigits (h : AsciiDigits F key) :
    FUtilities.intForString F key = (intForString key).map (min · NSIntegerMax) := by
  have hall : key.toList.all F.decimalDigitCharacterSet = key.toList.all Char.isDigit := by
    rw [Bool.eq_iff_iff, List.all_eq_true, List.all_eq_true]
    exact ⟨fun hk c hc => h c hc (hk c hc), fun hk c hc => F.isDecimalDigit (hk c hc)⟩
  unfold FUtilities.intForString intForString
  rw [hall]
  by_cases hempty : key = ""
  · subst hempty
    simp [F.scanInteger_empty]
  · by_cases hdigits : key.toList.all Char.isDigit = true
    · rw [if_pos hdigits, if_pos ⟨hempty, hdigits⟩, F.scanInteger_digits hempty hdigits]
      rfl
    · rw [if_neg hdigits, if_neg fun hboth => hdigits hboth.2]
      rfl

theorem integerKey_of_asciiDigits (h : AsciiDigits F key) :
    FChildrenNode.integerKey F key = (integerKey key).map (min · NSIntegerMax) := by
  unfold FChildrenNode.integerKey integerKey
  split
  · rfl
  · exact intForString_of_asciiDigits h

/-- A key read as less than the largest integer is the decimal text of its number. -/
theorem eq_toString_of_integerKey (h : AsciiDigits F key) {i : Nat} (hi : FChildrenNode.integerKey F key = some i)
    (hlt : i < NSIntegerMax) : key = toString i := by
  rw [integerKey_of_asciiDigits h] at hi
  obtain ⟨j, hj, hji⟩ := Option.map_eq_some_iff.1 hi
  have hij : i = j := by omega
  rw [hij]
  exact integerKey_eq_some hj

end AsciiDigits

namespace FChildrenNode

variable {F : Foundation} {cs : Dict}

theorem maxKey_of_asciiDigits (h : ∀ c ∈ cs, AsciiDigits F c.1) :
    maxKey F (cs.map Prod.fst) = min ((cs.filterMap fun c => ChatApp.integerKey c.1).foldl max 0) NSIntegerMax := by
  suffices hfold : ∀ m, ((cs.map Prod.fst).filterMap (integerKey F)).foldl max (min m NSIntegerMax) =
      min ((cs.filterMap fun c => ChatApp.integerKey c.1).foldl max m) NSIntegerMax from hfold 0
  induction cs with
  | nil => exact fun m => rfl
  | cons c cs ih =>
    intro m
    obtain ⟨hc, hcs⟩ := List.forall_mem_cons.1 h
    rw [List.map_cons, List.filterMap_cons, List.filterMap_cons, integerKey_of_asciiDigits hc]
    cases ChatApp.integerKey c.1 with
    | none => exact ih hcs m
    | some i =>
      have hmax : max (min m NSIntegerMax) (min i NSIntegerMax) = min (max m i) NSIntegerMax := by omega
      rw [Option.map_some, List.foldl_cons, List.foldl_cons, hmax]
      exact ih hcs (max m i)

/-- The casts of the app see an array exactly where one is exported. -/
theorem convertsToArray_keys (h : ∀ c ∈ cs, AsciiDigits F c.1) (hlen : 2 * cs.length ≤ INT_MAX) :
    convertsToArray F (cs.map Prod.fst) = isArrayLike cs := by
  have hall : (cs.map Prod.fst).all (fun key => (integerKey F key).isSome) =
      cs.all fun c => (ChatApp.integerKey c.1).isSome := by
    rw [List.all_map, Bool.eq_iff_iff, List.all_eq_true, List.all_eq_true]
    refine forall₂_congr fun c hc => ?_
    rw [Function.comp_apply, integerKey_of_asciiDigits (h c hc), Option.isSome_map]
  have hbound : INT_MAX ≤ NSIntegerMax := by decide
  unfold convertsToArray isArrayLike
  rw [hall, maxKey_of_asciiDigits h, List.length_map]
  congr 1
  rw [decide_eq_decide]
  omega

end FChildrenNode

/-- The text of a number is a key. -/
theorem isValidKey_toString (i : Nat) : FValidation.isValidKey (toString i) = true := by
  refine FValidation.avoids_eq_true.2 ⟨?_, fun c hc hbad => ?_⟩
  · rw [Nat.toString_eq_repr]
    exact Nat.repr_ne_empty
  · rw [Nat.toString_eq_repr, Nat.toList_repr] at hc
    have hdigit := Nat.isDigit_of_mem_toDigits (by decide) (by decide) hc
    have hlist : FValidation.kInvalidKeyCharacters.toList = ['[', ']', '.', '#', '$', '/'] := by decide
    rw [hlist] at hbad
    simp only [List.mem_cons, List.not_mem_nil, or_false] at hbad
    rcases hbad with rfl | rfl | rfl | rfl | rfl | rfl <;> exact absurd hdigit (by decide)

/-- A valid key is no key of metadata. -/
theorem ne_of_isValidKey {key : String} (h : FValidation.isValidKey key = true) :
    key.toList.head? ≠ some '.' ∧ key ≠ kPayloadValue ∧ key ≠ kServerValueSubKey := by
  have hdot : '.' ∉ key.toList := fun hmem => (FValidation.avoids_eq_true.1 h).2 '.' hmem (by decide)
  refine ⟨fun hhead => hdot (List.mem_of_head? hhead), ?_, ?_⟩
  · rintro rfl
    exact hdot (by decide)
  · rintro rfl
    exact hdot (by decide)

namespace FSnapshotUtilities

/-! ## Children -/

theorem lookup_storeChild (children : List (String × StoredNode)) (e : String × StoredNode) (k : String) :
    (storeChild children e).lookup k =
      if e.2.isEmpty = false ∧ k = e.1 then some e.2 else children.lookup k := by
  obtain ⟨j, x⟩ := e
  unfold storeChild
  cases hx : x.isEmpty with
  | true => simp
  | false =>
    by_cases hk : k = j
    · simp [hk]
    · rw [if_neg (by simp), if_neg (by simp [hk]), List.lookup_cons, beq_false_of_ne hk]
      exact Lib.Tree.lookup_filter_of_ne hk children

/-- The leaf without a null. -/
def dropNull : Option LeafValue → Option LeafValue
  | some .null => none
  | o => o

/-- The leaves of `n` but the nulls. -/
def Restored (r n : StoredNode) : Prop := ∀ q, r.leafAt q = dropNull (n.leafAt q)

theorem restored_empty : Restored .empty .empty := by
  intro q
  rw [Lib.Tree.leafAt_empty]
  rfl

theorem restored_leaf {l : LeafValue} (h : l ≠ .null) : Restored (.leaf l) (.leaf l) := by
  intro q
  cases q with
  | nil =>
    cases l with
    | null => exact absurd rfl h
    | leaf l => rfl
    | serverValue op => rfl
  | cons k q =>
    rw [Lib.Tree.leafAt_cons, Lib.Tree.child_leaf, Lib.Tree.leafAt_empty]
    rfl

theorem restored_null : Restored .empty (.leaf .null) := by
  intro q
  cases q with
  | nil => rfl
  | cons k q =>
    rw [Lib.Tree.leafAt_cons, Lib.Tree.leafAt_cons, Lib.Tree.child_leaf, Lib.Tree.child_empty, Lib.Tree.leafAt_empty]
    rfl

/-- **The node of the converted children**: when each restores the child of `t` at its key, and every child of `t` is
among them, it restores `t`. -/
theorem restored_nodeOf {t : StoredNode} (hroot : t.leaf? = none) {es : List (String × StoredNode)}
    (hes : ∀ e ∈ es, Restored e.2 (t.child e.1)) (hall : ∀ k, t.child k ≠ .empty → k ∈ es.map Prod.fst) :
    Restored (nodeOf es) t := by
  suffices hfold : ∀ (es' : List (String × StoredNode)) (children : List (String × StoredNode)),
      (∀ e ∈ es', Restored e.2 (t.child e.1)) → (∀ k x, children.lookup k = some x → Restored x (t.child k)) →
      ∀ k, (∀ x, (es'.foldl storeChild children).lookup k = some x → Restored x (t.child k)) ∧
        ((es'.foldl storeChild children).lookup k = none → k ∈ es'.map Prod.fst → Restored .empty (t.child k)) ∧
        ((es'.foldl storeChild children).lookup k = none → children.lookup k = none) by
    intro q
    cases q with
    | nil =>
      rw [Lib.Tree.leafAt, Lib.Tree.leafAt, Lib.Tree.get_nil, Lib.Tree.get_nil, hroot, nodeOf]
      cases es.foldl storeChild [] <;> rfl
    | cons k q =>
      rw [Lib.Tree.leafAt_cons, Lib.Tree.leafAt_cons, Lib.Tree.child, nodeOf, Lib.Tree.children_ofChildren]
      obtain ⟨hsome, hnone, -⟩ := hfold es [] hes (by simp) k
      cases hl : (es.foldl storeChild []).lookup k with
      | some x => exact hsome x hl q
      | none =>
        by_cases hk : t.child k = .empty
        · rw [hk]
          exact restored_empty q
        · exact hnone hl (hall k hk) q
  intro es'
  induction es' with
  | nil => exact fun children _ hc k => ⟨hc k, fun _ h => absurd h (by simp), id⟩
  | cons e es' ih =>
    intro children he hc k
    obtain ⟨he1, he'⟩ := List.forall_mem_cons.1 he
    have hstore : ∀ k x, (storeChild children e).lookup k = some x → Restored x (t.child k) := by
      intro k x hx
      rw [lookup_storeChild] at hx
      split at hx
      · rename_i h
        cases hx
        rw [h.2]
        exact he1
      · exact hc k x hx
    obtain ⟨hsome, hnone, hkeep⟩ := ih (storeChild children e) he' hstore k
    refine ⟨hsome, fun hl hk => ?_, fun hl => ?_⟩
    · rw [List.map_cons, List.mem_cons] at hk
      rcases hk with rfl | hk
      · -- nothing is stored under the key, so that the child is empty
        have hlast := hkeep hl
        rw [lookup_storeChild] at hlast
        split at hlast
        · cases hlast
        · rename_i hempty
          have : e.2 = .empty := Lib.Tree.eq_empty_of_isEmpty (by simpa using hempty)
          rw [this] at he1
          exact he1
      · exact hnone hl hk
    · have hlast := hkeep hl
      rw [lookup_storeChild] at hlast
      split at hlast
      · cases hlast
      · exact hlast

/-- What a leaf may hold. -/
def Storable : LeafValue → Prop
  | .leaf (.string s) => FValidation.fits s = true
  | _ => True

/-- A node that can be at a depth: no level is too deep, and no child is empty. -/
inductive Stored : Nat → StoredNode → Prop
  | leaf {depth : Nat} {l : LeafValue} (hd : depth ≤ kFirebaseMaxObjectDepth) (hl : Storable l) :
    Stored depth (.leaf l)
  | node {depth : Nat} {cs : List (String × StoredNode)} (hne : cs ≠ []) (hnd : (cs.map Prod.fst).Nodup)
    (hkey : ∀ c ∈ cs, FValidation.isValidKey c.1 = true) (hcs : ∀ c ∈ cs, Stored (depth + 1) c.2) :
    Stored depth (.node cs)

theorem Stored.depth_le {depth : Nat} {n : StoredNode} (h : Stored depth n) : depth ≤ kFirebaseMaxObjectDepth := by
  induction h with
  | leaf hd hl => exact hd
  | @node depth cs hne hnd hkey hcs ih =>
    obtain ⟨c, hc⟩ := List.exists_mem_of_ne_nil cs hne
    have := ih c hc
    omega

/-! ## What is accepted -/

/-- The node of children that can be one level below. -/
theorem stored_nodeOf {depth : Nat} {es : List (String × StoredNode)}
    (h : ∀ e ∈ es, FValidation.isValidKey e.1 = true ∧ (e.2 = .empty ∨ Stored (depth + 1) e.2)) :
    nodeOf es = .empty ∨ Stored depth (nodeOf es) := by
  suffices hfold : ∀ children : List (String × StoredNode), (children.map Prod.fst).Nodup →
      (∀ c ∈ children, FValidation.isValidKey c.1 = true ∧ Stored (depth + 1) c.2) →
      ((es.foldl storeChild children).map Prod.fst).Nodup ∧
        ∀ c ∈ es.foldl storeChild children, FValidation.isValidKey c.1 = true ∧ Stored (depth + 1) c.2 by
    obtain ⟨hnd, hcs⟩ := hfold [] List.nodup_nil (by simp)
    unfold nodeOf
    cases hfin : es.foldl storeChild [] with
    | nil => exact Or.inl rfl
    | cons c cs =>
      rw [hfin] at hnd hcs
      exact Or.inr (.node (by simp) hnd (fun c hc => (hcs c hc).1) fun c hc => (hcs c hc).2)
  induction es with
  | nil => exact fun children hnd hcs => ⟨hnd, hcs⟩
  | cons e es ih =>
    obtain ⟨he, hes⟩ := List.forall_mem_cons.1 h
    intro children hnd hcs
    rw [List.foldl_cons]
    apply ih hes
    · unfold storeChild
      split
      · exact hnd
      · rw [List.map_cons, List.nodup_cons]
        refine ⟨fun hmem => ?_, hnd.sublist (List.filter_sublist.map _)⟩
        obtain ⟨c, hc, hce⟩ := List.mem_map.1 hmem
        simp [hce] at hc
    · unfold storeChild
      split
      · exact hcs
      · rename_i hempty
        refine List.forall_mem_cons.2 ⟨⟨he.1, he.2.resolve_left fun h0 => ?_⟩, fun c hc => ?_⟩
        swap
        · exact hcs c (List.mem_filter.1 hc).1
        rw [h0] at hempty
        exact hempty rfl

theorem storable_isValidLeafValue {fn : String} {path : List String} {value : Value} {l : LeafValue}
    (h : FValidation.isValidLeafValue fn path value = .ok (some l)) : Storable l := by
  unfold FValidation.isValidLeafValue at h
  split at h
  · cases h
    trivial
  · split at h
    · rename_i hfits
      cases h
      exact hfits
    · cases h
  · rename_i l' hl
    cases h
    cases l' with
    | string s => exact absurd rfl (hl s)
    | bool b => trivial
    | number x => trivial
  · split at h
    · split at h
      · cases h
      · cases h
        trivial
    · cases h
  · cases h

theorem stored_payloadLeaf {fn : String} {path : List String} {value : Value} {depth : Nat}
    (hd : depth ≤ kFirebaseMaxObjectDepth) {n : StoredNode} (h : payloadLeaf fn path value = .ok n) :
    Stored depth n := by
  obtain ⟨l, hl, hn⟩ := Lib.bind_eq_ok h
  cases l with
  | none => cases hn
  | some l =>
    cases hn
    exact .leaf hd (storable_isValidLeafValue hl)

theorem isValidKey_of_validDictionaryKey {fn : String} {path : List String} {key : String}
    (h : FValidation.validDictionaryKey fn path key = .ok ()) (hhead : key.toList.head? ≠ some '.') :
    FValidation.isValidKey key = true := by
  unfold FValidation.validDictionaryKey at h
  split at h
  · cases h
  · rename_i hno
    by_contra hvalid
    refine hno ⟨?_, ?_, ?_, by simpa using hvalid⟩
    · rintro rfl
      exact hhead rfl
    · rintro rfl
      exact hhead rfl
    · rintro rfl
      exact hhead rfl

mutual

/-- **What is accepted can be stored.** -/
theorem stored_nodeFrom (fn : String) : ∀ (v : Value) {depth : Nat} {path : List String} {n : StoredNode},
    nodeFrom fn v depth path = .ok n → n = .empty ∨ Stored depth n
  | .null, depth, path, n, h => by
    rw [nodeFrom] at h
    split at h
    · cases h
    · cases h
      exact Or.inl rfl
  | .leaf l, depth, path, n, h => by
    rw [nodeFrom] at h
    split at h
    · cases h
    · exact Or.inr (stored_payloadLeaf (by omega) h)
  | .dictionary entries, depth, path, n, h => by
    rw [nodeFrom] at h
    split at h
    · cases h
    · split at h
      · exact Or.inr (stored_payloadLeaf (by omega) h)
      · obtain ⟨l, hl, hn⟩ := Lib.bind_eq_ok h
        cases l with
        | some l =>
          cases hn
          exact Or.inr (.leaf (by omega) (storable_isValidLeafValue hl))
        | none =>
          obtain ⟨es, hes, hn⟩ := Lib.bind_eq_ok hn
          cases hn
          exact stored_nodeOf (stored_dictionaryChildren fn entries hes)
  | .array values, depth, path, n, h => by
    rw [nodeFrom] at h
    split at h
    · cases h
    · obtain ⟨es, hes, hn⟩ := Lib.bind_eq_ok h
      cases hn
      exact stored_nodeOf (stored_arrayChildren fn values hes)

theorem stored_dictionaryChildren (fn : String) : ∀ (entries : List (String × Value)) {depth : Nat}
    {path : List String} {es : List (String × StoredNode)}, dictionaryChildren fn entries depth path = .ok es →
      ∀ e ∈ es, FValidation.isValidKey e.1 = true ∧ (e.2 = .empty ∨ Stored depth e.2)
  | [], depth, path, es, h => by
    rw [dictionaryChildren] at h
    cases h
    simp
  | e :: entries, depth, path, es, h => by
    rw [dictionaryChildren] at h
    obtain ⟨_, hkey, h⟩ := Lib.bind_eq_ok h
    split at h
    · exact stored_dictionaryChildren fn entries h
    · rename_i hhead
      obtain ⟨childNode, hchild, h⟩ := Lib.bind_eq_ok h
      obtain ⟨rest, hrest, h⟩ := Lib.bind_eq_ok h
      cases h
      exact List.forall_mem_cons.2 ⟨⟨isValidKey_of_validDictionaryKey hkey hhead, stored_entryNode fn e hchild⟩,
        stored_dictionaryChildren fn entries hrest⟩

theorem stored_entryNode (fn : String) : ∀ (e : String × Value) {depth : Nat} {path : List String} {n : StoredNode},
    entryNode fn e depth path = .ok n → n = .empty ∨ Stored depth n
  | (key, value), depth, path, n, h => by
    rw [entryNode] at h
    exact stored_nodeFrom fn value h

theorem stored_arrayChildren (fn : String) : ∀ (values : List Value) {i depth : Nat} {path : List String}
    {es : List (String × StoredNode)}, arrayChildren fn values i depth path = .ok es →
      ∀ e ∈ es, FValidation.isValidKey e.1 = true ∧ (e.2 = .empty ∨ Stored depth e.2)
  | [], i, depth, path, es, h => by
    rw [arrayChildren] at h
    cases h
    simp
  | value :: values, i, depth, path, es, h => by
    rw [arrayChildren] at h
    obtain ⟨childNode, hchild, h⟩ := Lib.bind_eq_ok h
    obtain ⟨rest, hrest, h⟩ := Lib.bind_eq_ok h
    cases h
    exact List.forall_mem_cons.2 ⟨⟨isValidKey_toString i, stored_nodeFrom fn value hchild⟩,
      stored_arrayChildren fn values hrest⟩

end

/-! ## Round trip -/

open FChildrenNode (valForExport exportChildren exportChild exported maxKey)

variable {F : Foundation}

theorem exportChildren_eq (cs : List (String × StoredNode)) :
    exportChildren F cs = cs.map fun c => (c.1, valForExport F c.2) := by
  induction cs with
  | nil => rw [exportChildren, List.map_nil]
  | cons c cs ih =>
    obtain ⟨k, x⟩ := c
    rw [exportChildren, exportChild, List.map_cons, ih]

theorem valForExport_node {cs : List (String × StoredNode)} (h : cs ≠ []) :
    valForExport F (.node cs) = exported F (cs.map fun c => (c.1, valForExport F c.2)) := by
  cases cs with
  | nil => exact absurd rfl h
  | cons c cs =>
    obtain ⟨k, x⟩ := c
    rw [valForExport, exportChild, exportChildren_eq, List.map_cons]

theorem le_maxKey {keys : List String} {key : String} (h : key ∈ keys) {i : Nat}
    (hi : FChildrenNode.integerKey F key = some i) : i ≤ maxKey F keys := by
  have hmem : i ∈ keys.filterMap (FChildrenNode.integerKey F) := List.mem_filterMap.2 ⟨key, h, hi⟩
  have hfold : ∀ (is : List Nat) (m : Nat), m ≤ is.foldl max m ∧ ∀ j ∈ is, j ≤ is.foldl max m := by
    intro is
    induction is with
    | nil => simp
    | cons j is ih =>
      intro m
      obtain ⟨hm, his⟩ := ih (max m j)
      exact ⟨by rw [List.foldl_cons]; omega, List.forall_mem_cons.2 ⟨by rw [List.foldl_cons]; omega, his⟩⟩
  exact (hfold _ 0).2 i hmem

section Children

variable {fn : String} {t : StoredNode} {depth : Nat} {path : List String}

theorem returns_dictionaryChildren {entries : List (String × Value)}
    (hkey : ∀ e ∈ entries, FValidation.isValidKey e.1 = true)
    (h : ∀ e ∈ entries, ∀ path, Returns (nodeFrom fn e.2 depth path) (Restored · (t.child e.1))) :
    Returns (dictionaryChildren fn entries depth path) fun es =>
      es.map Prod.fst = entries.map Prod.fst ∧ ∀ e ∈ es, Restored e.2 (t.child e.1) := by
  induction entries with
  | nil =>
    rw [dictionaryChildren]
    exact .ok ⟨rfl, by simp⟩
  | cons e entries ih =>
    obtain ⟨k, v⟩ := e
    obtain ⟨hk, hkey⟩ := List.forall_mem_cons.1 hkey
    obtain ⟨hv, h⟩ := List.forall_mem_cons.1 h
    have hvalid : FValidation.validDictionaryKey fn path k = .ok () := by
      change FValidation.isValidKey k = true at hk
      simp [FValidation.validDictionaryKey, hk]
    rw [dictionaryChildren]
    simp only [hvalid]
    apply Returns.ite
    · intro hhead
      exact absurd hhead (ne_of_isValidKey hk).1
    · intro _
      rw [entryNode]
      apply (hv (path ++ [k])).bind
      intro childNode hchild
      apply (ih hkey h).bind
      rintro es ⟨hkeys, hes⟩
      exact .pure ⟨by rw [List.map_cons, List.map_cons, hkeys], List.forall_mem_cons.2 ⟨hchild, hes⟩⟩

theorem returns_arrayChildren {values : List Value} {i : Nat}
    (h : ∀ j v, values[j]? = some v → ∀ path,
      Returns (nodeFrom fn v depth path) (Restored · (t.child (toString (i + j))))) :
    Returns (arrayChildren fn values i depth path) fun es =>
      es.map Prod.fst = (List.range' i values.length).map toString ∧ ∀ e ∈ es, Restored e.2 (t.child e.1) := by
  induction values generalizing i with
  | nil =>
    rw [arrayChildren]
    exact .ok ⟨rfl, by simp⟩
  | cons v values ih =>
    rw [arrayChildren]
    apply (h 0 v rfl (path ++ [toString i])).bind
    intro childNode hchild
    have hrest := ih (i := i + 1) fun j w hw => by
      have := h (j + 1) w hw
      rwa [show i + (j + 1) = i + 1 + j by omega] at this
    apply hrest.bind
    rintro es ⟨hkeys, hes⟩
    refine .pure ⟨?_, List.forall_mem_cons.2 ⟨hchild, hes⟩⟩
    rw [List.map_cons, hkeys, List.length_cons, List.range'_succ, List.map_cons]

end Children

theorem returns_nodeFrom_leaf {fn : String} {depth : Nat} (hd : depth ≤ kFirebaseMaxObjectDepth) {l : LeafValue}
    (hl : Storable l) (path : List String) :
    Returns (nodeFrom fn l.value depth path) (Restored · (.leaf l)) := by
  have hdepth : ¬kFirebaseMaxObjectDepth < depth := by omega
  cases l with
  | null =>
    rw [LeafValue.value, nodeFrom, if_neg hdepth]
    exact .ok restored_null
  | leaf l =>
    rw [LeafValue.value, nodeFrom, if_neg hdepth]
    unfold payloadLeaf
    cases l with
    | string s =>
      rw [FValidation.isValidLeafValue, if_pos (show FValidation.fits s = true from hl)]
      exact .ok (restored_leaf (by simp))
    | bool b => exact .ok (restored_leaf (by simp))
    | number x => exact .ok (restored_leaf (by simp))
  | serverValue op =>
    rw [LeafValue.value, nodeFrom, if_neg hdepth]
    exact .ok (restored_leaf (by simp))

theorem lookup_exported (cs : List (String × StoredNode)) (k : String) :
    ((cs.map fun c => (c.1, valForExport F c.2)).lookup k).getD .null =
      valForExport F ((Lib.Tree.node cs).child k) := by
  rw [Lib.Tree.child, Lib.Tree.children]
  induction cs with
  | nil => rw [List.map_nil, List.lookup_nil, List.lookup_nil, Option.getD_none, Option.getD_none, valForExport]
  | cons c cs ih =>
    rw [List.map_cons, List.lookup_cons, List.lookup_cons]
    cases k == c.1 with
    | true => rfl
    | false => exact ih

/-- The keys of `n` have no decimal digits but ASCII's, and the `int` that counts the children of a node does not
overflow. -/
def Exportable (F : Foundation) (n : StoredNode) : Prop :=
  ∀ q cs, n.get q = .node cs → (∀ c ∈ cs, AsciiDigits F c.1) ∧ 2 * cs.length ≤ INT_MAX

theorem Exportable.child {n : StoredNode} (h : Exportable F n) (k : String) : Exportable F (n.child k) :=
  fun q => h (k :: q)

theorem exportable_leaf (l : LeafValue) : Exportable F (.leaf l) := by
  intro q cs h
  cases q with
  | nil => cases h
  | cons k q =>
    rw [Lib.Tree.get_cons, Lib.Tree.child_leaf, Lib.Tree.get_empty] at h
    cases h

theorem exportable_node {cs : List (String × StoredNode)} (hkey : ∀ c ∈ cs, AsciiDigits F c.1)
    (hlen : 2 * cs.length ≤ INT_MAX) (hcs : ∀ c ∈ cs, Exportable F c.2) : Exportable F (.node cs) := by
  intro q cs' h
  cases q with
  | nil =>
    cases h
    exact ⟨hkey, hlen⟩
  | cons k q =>
    rw [Lib.Tree.get_cons, Lib.Tree.child, Lib.Tree.children] at h
    cases hl : cs.lookup k with
    | none =>
      rw [hl, Option.getD_none, Lib.Tree.get_empty] at h
      cases h
    | some x =>
      rw [hl, Option.getD_some] at h
      obtain ⟨pre, post, rfl, -⟩ := List.lookup_eq_some_iff.1 hl
      exact hcs (k, x) (by simp) q cs' h

/-- The children of an exported node come back. -/
theorem returns_nodeFrom_exported {fn : String} {depth : Nat} (hd : depth ≤ kFirebaseMaxObjectDepth)
    {cs : List (String × StoredNode)} (hnd : (cs.map Prod.fst).Nodup)
    (hkey : ∀ c ∈ cs, FValidation.isValidKey c.1 = true) (hexp : Exportable F (.node cs))
    (h : ∀ k path, Returns (nodeFrom fn (valForExport F ((Lib.Tree.node cs).child k)) (depth + 1) path)
      (Restored · ((Lib.Tree.node cs).child k))) (path : List String) :
    Returns (nodeFrom fn (exported F (cs.map fun c => (c.1, valForExport F c.2))) depth path)
      (Restored · (.node cs)) := by
  have hdepth : ¬kFirebaseMaxObjectDepth < depth := by omega
  have hkeys : (cs.map fun c => (c.1, valForExport F c.2)).map Prod.fst = cs.map Prod.fst := by simp
  have hmem : ∀ k, (Lib.Tree.node cs).child k ≠ .empty → k ∈ cs.map Prod.fst := by
    intro k hk
    by_contra hno
    exact hk (Lib.Tree.child_eq_empty hno)
  unfold exported
  rw [hkeys]
  split
  · -- every index of the array is read back as the child at its text
    rename_i harray
    rw [FChildrenNode.convertsToArray, Bool.and_eq_true, List.all_eq_true, decide_eq_true_iff, List.length_map]
      at harray
    obtain ⟨hascii, hlen⟩ := hexp [] cs rfl
    have hbound : INT_MAX ≤ NSIntegerMax := by decide
    rw [nodeFrom, if_neg hdepth]
    apply Returns.bind
    · apply returns_arrayChildren (t := .node cs)
      intro j v hv path
      rw [List.getElem?_map] at hv
      obtain ⟨i, hi, rfl⟩ := Option.map_eq_some_iff.1 hv
      obtain ⟨hlt, rfl⟩ := List.getElem?_eq_some_iff.1 hi
      rw [List.getElem_range, Nat.zero_add, lookup_exported]
      exact h (toString j) path
    · rintro es ⟨hes, hsame⟩
      refine .pure (restored_nodeOf rfl hsame fun k hk => ?_)
      obtain ⟨i, hi⟩ := Option.isSome_iff_exists.1 (harray.1 k (hmem k hk))
      have hle := le_maxKey (hmem k hk) hi
      obtain ⟨c, hc, hck⟩ := List.mem_map.1 (hmem k hk)
      have hasciik : AsciiDigits F k := hck ▸ hascii c hc
      rw [hes, eq_toString_of_integerKey hasciik hi (by omega)]
      refine List.mem_map_of_mem ?_
      rw [List.length_map, List.length_range, List.mem_range'_1]
      omega
  · have hmissing : ∀ k, k ∉ cs.map Prod.fst → (cs.map fun c => (c.1, valForExport F c.2)).lookup k = none := by
      intro k hk
      rw [List.lookup_eq_none_iff]
      rintro ⟨j, v⟩ hj
      have hjk : j ∈ cs.map Prod.fst := hkeys ▸ List.mem_map_of_mem (f := Prod.fst) hj
      have hne : k ≠ j := fun heq => hk (heq ▸ hjk)
      simpa using hne
    have hmeta : ∀ k, FValidation.isValidKey k = false → k ∉ cs.map Prod.fst := by
      intro k hk hmemk
      obtain ⟨c, hc, rfl⟩ := List.mem_map.1 hmemk
      rw [hkey c hc] at hk
      cases hk
    rw [nodeFrom, if_neg hdepth, hmissing kPayloadValue (hmeta _ (by decide))]
    have hleaf : Returns (FValidation.isValidLeafValue fn path
        (.dictionary (cs.map fun c => (c.1, valForExport F c.2)))) (· = none) := by
      rw [FValidation.isValidLeafValue, hmissing kServerValueSubKey (hmeta _ (by decide))]
      exact .ok rfl
    apply hleaf.bind
    rintro _ rfl
    apply Returns.bind
    · apply returns_dictionaryChildren (t := .node cs)
      · intro e he
        obtain ⟨c, hc, rfl⟩ := List.mem_map.1 he
        exact hkey c hc
      · intro e he path
        obtain ⟨c, hc, rfl⟩ := List.mem_map.1 he
        have hchild : (Lib.Tree.node cs).child c.1 = c.2 := by
          rw [Lib.Tree.child, Lib.Tree.children, (Lib.Assoc.lookup_eq_some_iff_mem hnd).2 hc, Option.getD_some]
        have := h c.1 path
        rwa [hchild] at this ⊢
    · rintro es ⟨hes, hsame⟩
      refine .pure (restored_nodeOf rfl hsame fun k hk => ?_)
      rw [hes, hkeys]
      exact hmem k hk

/-- **A stored node comes back from its value.** -/
theorem returns_nodeFrom {fn : String} {depth : Nat} {n : StoredNode} (h : Stored depth n) (hexp : Exportable F n)
    (path : List String) : Returns (nodeFrom fn (valForExport F n) depth path) (Restored · n) := by
  induction h generalizing path with
  | @leaf depth l hd hl =>
    rw [valForExport]
    exact returns_nodeFrom_leaf hd hl path
  | @node depth cs hne hnd hkey hcs ih =>
    have hdeep : depth + 1 ≤ kFirebaseMaxObjectDepth := by
      obtain ⟨c, hc⟩ := List.exists_mem_of_ne_nil cs hne
      exact (hcs c hc).depth_le
    rw [valForExport_node hne]
    refine returns_nodeFrom_exported (by omega) hnd hkey hexp (fun k path => ?_) path
    cases hl : cs.lookup k with
    | none =>
      have hchild : (Lib.Tree.node cs).child k = .empty := by rw [Lib.Tree.child, Lib.Tree.children, hl]; rfl
      rw [hchild, valForExport, nodeFrom, if_neg (by omega)]
      exact .ok restored_empty
    | some x =>
      have hchild : (Lib.Tree.node cs).child k = x := by rw [Lib.Tree.child, Lib.Tree.children, hl]; rfl
      rw [hchild]
      exact ih (k, x) ((Lib.Assoc.lookup_eq_some_iff_mem hnd).1 hl) (hchild ▸ hexp.child k) path

/-- **What a program has stored and reads back can be stored again, and is the same data.** The value of an accepted
node is accepted, whether it is an array or not, and gives the same leaves at the same paths; only a leaf that was
stored as a null, under `.value`, is gone. -/
theorem nodeFrom_valForExport {fn : String} {v : Value} {n : StoredNode} (h : nodeFrom fn v 0 [] = .ok n)
    (hexp : Exportable F n) : Returns (nodeFrom fn (valForExport F n) 0 []) (Restored · n) := by
  rcases stored_nodeFrom fn v h with rfl | hstored
  · rw [valForExport, nodeFrom, if_neg (by decide)]
    exact .ok restored_empty
  · exact returns_nodeFrom hstored hexp []

/-- A Foundation that knows ASCII alone. -/
def asciiFoundation : Foundation where
  decimalDigitCharacterSet := Char.isDigit
  scanInteger s := (intForString s).map (min · NSIntegerMax)
  isDecimalDigit h := h
  scanInteger_empty := rfl
  scanInteger_digits hne h := by
    unfold intForString
    rw [if_pos ⟨hne, h⟩]
    rfl

/-- An array with a gap, and a null under `.value`. -/
def mixedValue : Value :=
  .dictionary [("list", .array [.leaf (.string "a"), .null, .leaf (.bool true)]),
    ("x", .dictionary [(".value", .null)])]

def mixedNode : StoredNode :=
  .node [("x", .leaf .null), ("list", .node [("2", .leaf (.leaf (.bool true))), ("0", .leaf (.leaf (.string "a")))])]

theorem exportable_mixedNode : Exportable asciiFoundation mixedNode := by
  have hascii : ∀ key, AsciiDigits asciiFoundation key := fun key c _ h => h
  refine exportable_node (fun c _ => hascii c.1) (by decide) (List.forall_mem_cons.2 ⟨exportable_leaf _, ?_⟩)
  refine List.forall_mem_cons.2 ⟨exportable_node (fun c _ => hascii c.1) (by decide) ?_, by simp⟩
  exact List.forall_mem_cons.2 ⟨exportable_leaf _, List.forall_mem_cons.2 ⟨exportable_leaf _, by simp⟩⟩

theorem nodeFrom_valForExport_mixedValue : nodeFrom "setValue:" mixedValue 0 [] = .ok mixedNode ∧
    mixedNode.leafAt ["x"] = some .null ∧
    Returns (nodeFrom "setValue:" (valForExport asciiFoundation mixedNode) 0 []) (Restored · mixedNode) :=
  ⟨rfl, rfl, nodeFrom_valForExport (v := mixedValue) rfl exportable_mixedNode⟩

end FSnapshotUtilities

end ChatApp
