import ChatApp.Firebase.Node

/-!
# Database references

`FIRDatabaseReference.child` and `updateChildValues`, with the validation that raises (`FValidation`,
`FSnapshotUtilities`):

- `child_eq_ok`: below the root, `child` accepts exactly the non-empty strings without `. # $ [ ]`;
- `Uid`, a non-empty key that `child` appends as one path component (`child_uid`);
- `validUpdate_eq_ok`: with valid keys, `updateChildValues` raises exactly for a string over the leaf size limit;
- `get_updateChildValues_of_empty`, `get_updateChildValues_of_not_prefix`: what an update leaves at its own path, when
  there was nothing before, and at the other paths.
-/

namespace ChatApp

namespace FValidation

def kInvalidPathCharacters : String := "[].#$"
def kInvalidKeyCharacters : String := "[].#$/"
/-- 10 MB. -/
def kFirebaseMaxLeafSize : Nat := 1024 * 1024 * 10

/-- A non-empty string without any of the characters `bad`. -/
def avoids (bad : String) (s : String) : Bool := s ≠ "" && s.toList.all fun c => !bad.toList.contains c

def isValidPathString (pathString : String) : Bool := avoids kInvalidPathCharacters pathString

def isValidKey (key : String) : Bool := avoids kInvalidKeyCharacters key

def validPathString (fn pathString : String) : Except Fault Unit :=
  if isValidPathString pathString then .ok ()
  else .error (.exception "InvalidPathValidation"
    ("(" ++ fn ++ ") Must be a non-empty string and not contain '.' '#' '$' '[' or ']'"))

/-- The match of `^\/*\.info(\/|$)` replaced by a slash. -/
def replaceDotInfo (cs : List Char) : List Char :=
  match cs.dropWhile (· = '/') with
  | '.' :: 'i' :: 'n' :: 'f' :: 'o' :: [] => ['/']
  | '.' :: 'i' :: 'n' :: 'f' :: 'o' :: '/' :: rest => '/' :: rest
  | _ => cs

def validRootPathString (fn pathString : String) : Except Fault Unit :=
  validPathString fn (String.ofList (replaceDotInfo pathString.toList))

/-- A string leaf of more than `kFirebaseMaxLeafSize` bytes cannot be stored. -/
def fits (s : String) : Bool := s.utf8ByteSize ≤ kFirebaseMaxLeafSize

theorem avoids_eq_true {bad s : String} : avoids bad s = true ↔ s ≠ "" ∧ ∀ c ∈ s.toList, c ∉ bad.toList := by
  simp [avoids]

theorem isValidPathString_of_isValidKey {s : String} (h : isValidKey s = true) : isValidPathString s = true := by
  have hsub : ∀ c ∈ kInvalidPathCharacters.toList, c ∈ kInvalidKeyCharacters.toList := by
    simp [kInvalidPathCharacters, kInvalidKeyCharacters]
  obtain ⟨hne, hall⟩ := avoids_eq_true.1 h
  exact avoids_eq_true.2 ⟨hne, fun c hc hb => hall c hc (hsub c hb)⟩

end FValidation

/-! ## Paths -/

/-- The components of a path: empty pieces are dropped. -/
def FPath.pieces (path : String) : List String :=
  ((path.toList.splitOn '/').filter (· ≠ [])).map String.ofList

/-- A valid key is one path component. -/
theorem FPath.pieces_of_isValidKey {s : String} (h : FValidation.isValidKey s = true) : FPath.pieces s = [s] := by
  obtain ⟨hne, hall⟩ := FValidation.avoids_eq_true.1 h
  have hslash : '/' ∉ s.toList := fun hc => hall '/' hc (by decide)
  have hnil : s.toList ≠ [] := by simpa using hne
  simp [FPath.pieces, List.splitOn_eq_singleton hslash, hnil]

/-- A user id of Firebase Auth: a key of the database. -/
structure Uid where
  val : String
  valid : FValidation.isValidKey val = true
  deriving DecidableEq

theorem Uid.val_ne_empty (u : Uid) : u.val ≠ "" := (FValidation.avoids_eq_true.1 u.valid).1

theorem Uid.ext {u v : Uid} (h : u.val = v.val) : u = v := by
  cases u; cases v; simp_all

/-- `FIRDatabaseReference`: the path below the root of the database. -/
structure Ref where
  path : List String
  deriving DecidableEq

namespace Ref

/-- `Database.database().reference()`. -/
def root : Ref := ⟨[]⟩

def child (r : Ref) (pathString : String) : Except Fault Ref :=
  match if r.path = [] then FValidation.validRootPathString "child:" pathString
    else FValidation.validPathString "child:" pathString with
  | .ok () => .ok ⟨r.path ++ FPath.pieces pathString⟩
  | .error f => .error f

/-- Below the root, `child` accepts exactly the valid path strings. -/
theorem child_eq_ok {r r' : Ref} {s : String} (hr : r.path ≠ []) : r.child s = .ok r' ↔
    FValidation.isValidPathString s = true ∧ r' = ⟨r.path ++ FPath.pieces s⟩ := by
  unfold child FValidation.validPathString
  cases hs : FValidation.isValidPathString s <;> simp [hr, eq_comm]

/-- A user id is appended as one component. -/
theorem child_uid {r : Ref} (hr : r.path ≠ []) (u : Uid) : r.child u.val = .ok ⟨r.path ++ [u.val]⟩ := by
  rw [child_eq_ok hr, FPath.pieces_of_isValidKey u.valid]
  exact ⟨FValidation.isValidPathString_of_isValidKey u.valid, rfl⟩

/-- A key of an update is a path of valid keys. That its last one may also be `.priority` is left out. -/
def validUpdateDictionaryKey (fn key : String) : Except Fault Unit :=
  if (FPath.pieces key).all FValidation.isValidKey then .ok ()
  else .error (.exception "InvalidFirebaseData" ("(" ++ fn ++
    ") Invalid key in object. Keys must be non-empty and cannot contain '.' '#' '$' '[' or ']'"))

/-- A missing value is `NSNull` and can be stored; a long string raises. -/
def isValidLeafValue (fn : String) : Option String → Except Fault Unit
  | none => .ok ()
  | some s => if FValidation.fits s then .ok ()
    else .error (.exception "InvalidFirebaseData" ("(" ++ fn ++ ") String exceeds max size of " ++
      toString FValidation.kFirebaseMaxLeafSize ++ " utf8 bytes: "))

/-- The validation of `updateChildValues`, which runs when it is called. -/
def validUpdate (fn : String) : List (String × Option String) → Except Fault Unit
  | [] => .ok ()
  | (key, value) :: values => do
    validUpdateDictionaryKey fn key
    isValidLeafValue fn value
    validUpdate fn values

/-- The node of an optional string. -/
def nodeFrom : Option String → Node
  | none => .empty
  | some s => Node.string s

/-- The update of `updateChildValues`, applied to the database all at once. -/
def updateChildValues (r : Ref) (values : List (String × Option String)) (db : Node) : Node :=
  db.update r.path (values.map fun v => (FPath.pieces v.1, nodeFrom v.2))

/-- The node that an update makes where there was none: its non-nil values, the last one in front. -/
def recordNode (values : List (String × Option String)) : Node :=
  .ofChildren (values.filterMap fun v => v.2.map fun s => (v.1, Node.string s)).reverse

theorem set_ofChildren {cs : Dict} {k : String} (hk : FValidation.isValidKey k = true) (hcs : k ∉ cs.map Prod.fst)
    (v : Option String) : (Lib.Tree.ofChildren cs : Node).set (FPath.pieces k) (nodeFrom v) =
      .ofChildren ((v.map fun s => (k, Node.string s)).toList ++ cs) := by
  rw [FPath.pieces_of_isValidKey hk, Lib.Tree.set_singleton]
  cases v with
  | none =>
    cases cs with
    | nil => rfl
    | cons c cs => simp [nodeFrom, Lib.Tree.ofChildren, Lib.Tree.others_node_of_notMem hcs]
  | some s =>
    cases cs with
    | nil => rfl
    | cons c cs =>
      simp [nodeFrom, Node.string, Lib.Tree.ofChildren, Lib.Tree.others_node_of_notMem hcs]

theorem foldl_set_ofChildren (values : List (String × Option String)) (cs : Dict)
    (hkey : ∀ v ∈ values, FValidation.isValidKey v.1 = true) (hnd : (values.map Prod.fst).Nodup)
    (hcs : ∀ v ∈ values, v.1 ∉ cs.map Prod.fst) :
    (values.map fun v => (FPath.pieces v.1, nodeFrom v.2)).foldl (fun n w => n.set w.1 w.2)
        (Lib.Tree.ofChildren cs : Node) =
      .ofChildren ((values.filterMap fun v => v.2.map fun s => (v.1, Node.string s)).reverse ++ cs) := by
  induction values generalizing cs with
  | nil => rfl
  | cons kv values ih =>
    obtain ⟨k, v⟩ := kv
    rw [List.map_cons, List.nodup_cons] at hnd
    have hkeys : ∀ w ∈ values, FValidation.isValidKey w.1 = true := fun w hw => hkey w (List.mem_cons_of_mem _ hw)
    rw [List.map_cons, List.foldl_cons, set_ofChildren (hkey _ List.mem_cons_self) (hcs _ List.mem_cons_self),
      ih _ hkeys hnd.2]
    · cases v <;> simp
    · intro w hw hmem
      rw [List.map_append, List.mem_append] at hmem
      rcases hmem with hmem | hmem
      · have hk : w.1 = k := by cases v <;> simp_all
        exact hnd.1 (List.mem_map.2 ⟨w, hw, hk⟩)
      · exact hcs w (List.mem_cons_of_mem _ hw) hmem

/-- **An update at a place without a value** leaves exactly its non-nil values there. -/
theorem get_updateChildValues_of_empty {r : Ref} {db : Node} {values : List (String × Option String)}
    (hdb : db.get r.path = .empty) (hkey : ∀ v ∈ values, FValidation.isValidKey v.1 = true)
    (hnd : (values.map Prod.fst).Nodup) : (r.updateChildValues values db).get r.path = recordNode values := by
  rw [updateChildValues, Lib.Tree.get_update_self, hdb]
  have h := foldl_set_ofChildren values [] hkey hnd (by simp)
  rw [List.append_nil] at h
  exact h

/-- **Frame**: an update is not seen at a path that is neither above nor below it. -/
theorem get_updateChildValues_of_not_prefix {r : Ref} {p : List String} (db : Node)
    (values : List (String × Option String)) (h : ¬r.path <+: p) (h' : ¬p <+: r.path) :
    (r.updateChildValues values db).get p = db.get p :=
  Lib.Tree.get_update_of_not_prefix db _ h h'

theorem validUpdate_cons {fn key : String} {value : Option String} {values : List (String × Option String)}
    (hk : (FPath.pieces key).all FValidation.isValidKey = true) : validUpdate fn ((key, value) :: values) = .ok () ↔
      (∀ s, value = some s → FValidation.fits s = true) ∧ validUpdate fn values = .ok () := by
  have hkey : validUpdateDictionaryKey fn key = .ok () := by simp [validUpdateDictionaryKey, hk]
  cases value with
  | none => simp [validUpdate, hkey, isValidLeafValue, bind, Except.bind]
  | some s => cases hs : FValidation.fits s <;> simp [validUpdate, hkey, isValidLeafValue, hs, bind, Except.bind]

/-- When the keys are valid, the call raises exactly for a string that does not fit. -/
theorem validUpdate_eq_ok {fn : String} {values : List (String × Option String)}
    (h : ∀ v ∈ values, (FPath.pieces v.1).all FValidation.isValidKey = true) :
    validUpdate fn values = .ok () ↔ ∀ v ∈ values, ∀ s, v.2 = some s → FValidation.fits s = true := by
  induction values with
  | nil => simp [validUpdate]
  | cons kv values ih =>
    have hrest : ∀ v ∈ values, (FPath.pieces v.1).all FValidation.isValidKey = true :=
      fun v hv => h v (List.mem_cons_of_mem _ hv)
    rw [validUpdate_cons (h _ List.mem_cons_self), ih hrest, List.forall_mem_cons]

end Ref

end ChatApp
