import ChatApp.Lib.Tree

/-!
# Database values and the casts that read them

A database node (`FNode`) is a tree of dictionaries over string keys; its leaves are booleans, numbers and strings.
The app reads nodes through Swift casts:

- `value as? [String: AnyObject]` (`Node.asDict`): a node with children is handed out as a dictionary, unless all its
  keys are small integers (`isArrayLike`, `FChildrenNode.valForExport`), in which case it is an array;
- `dict[key] as? String` (`Dict.string?`) and `dict[key] as! String` (`Dict.string!`), which traps.

Calls that can end the process return `Except Fault`.
-/

namespace ChatApp

/-- What ends the process: a Swift runtime trap or an uncaught Objective-C exception. -/
inductive Fault
  | nilUnwrap
  | badCast
  | indexOutOfRange
  | exception (name reason : String)
  deriving DecidableEq, Repr

inductive Leaf
  | bool (b : Bool)
  | number (x : Rat)
  | string (s : String)
  deriving DecidableEq

/-- A node of the database; `Lib.Tree.empty` is `NSNull`. -/
abbrev Node := Lib.Tree String Leaf

/-- A `[String: AnyObject]`. -/
abbrev Dict := List (String × Node)

/-- `FUtilities.intForString`, of ASCII digits: the number a key of them stands for. -/
def intForString (key : String) : Option Nat :=
  if key ≠ "" ∧ key.toList.all Char.isDigit then
    some (key.toList.foldl (fun n c => 10 * n + (c.toNat - '0'.toNat)) 0)
  else none

/-- The integer a child key counts as: leading zeroes make it a string. -/
def integerKey (key : String) : Option Nat :=
  if key.toList.head? = some '0' ∧ 1 < key.length then none else intForString key

/-- `FChildrenNode.valForExport` turns a node into an array when all its keys are integers and at least half of the
array would be filled. -/
def isArrayLike (cs : Dict) : Bool :=
  cs.all (fun c => (integerKey c.1).isSome) &&
    (cs.filterMap fun c => integerKey c.1).foldl max 0 < 2 * cs.length

namespace Node

/-- The leaf of a string. -/
def string (s : String) : Node := .leaf (.string s)

/-- `as? String`. -/
def asString : Node → Option String
  | .leaf (.string s) => some s
  | _ => none

/-- `snapshot.value as? [String: AnyObject]`. -/
def asDict : Node → Option Dict
  | .node cs => if isArrayLike cs then none else some cs
  | _ => none

@[simp] theorem asString_string (s : String) : (string s).asString = some s := rfl

/-- A key that is no integer makes the node a dictionary. -/
theorem asDict_node_of_key {cs : Dict} {k : String} {x : Node} (h : (k, x) ∈ cs) (hk : integerKey k = none) :
    asDict (.node cs) = some cs := by
  have hall : cs.all (fun c => (integerKey c.1).isSome) = false := by
    rw [List.all_eq_false]
    exact ⟨(k, x), h, by simp [hk]⟩
  simp [asDict, isArrayLike, hall]

end Node

namespace Dict

/-- `dict[key] as? String`. -/
def string? (dict : Dict) (key : String) : Option String := (dict.lookup key).bind Node.asString

/-- `dict[key] as! String`. -/
def string! (dict : Dict) (key : String) : Except Fault String :=
  match dict.string? key with
  | some s => .ok s
  | none => .error .badCast

theorem string!_of_string? {dict : Dict} {key s : String} (h : dict.string? key = some s) :
    dict.string! key = .ok s := by
  simp [string!, h]

end Dict

end ChatApp
