/-
# OpenApi.Json.Written -- JSON as it was written

A text is read into a tree that still has every member of every object, repeated keys
included, because what reads a record has to see a key that is given twice. Where a
plain JSON value is wanted, a repeated key keeps its first place and takes its last
value.

Some texts are well formed and still have no value: a number too large for a double,
half of a surrogate pair, a container inside too many others. They stand in the tree
as *unusable*. A part that nothing reads may be unusable; a part that is read may not.
-/
import OpenApi.Json.Basic

namespace OpenApi.Json

/-- A JSON text as a tree. -/
inductive Written where
  | null
  | bool (value : Bool)
  | number (value : Number)
  | string (value : String)
  | array (items : List Written)
  | object (members : List (String × Written))
  | unusable
  deriving Inhabited

namespace Written

mutual

/-- The value that was written, if every part of it can be used. -/
def value? : Written → Option Json
  | .null => some .null
  | .bool b => some (.bool b)
  | .number n => some (.number n)
  | .string s => some (.string s)
  | .array items => (values? items).map .array
  | .object members => (memberValues? members).map fun ms => .object (Entries.collect ms)
  | .unusable => none

/-- The values of the items of an array. -/
def values? : List Written → Option (List Json)
  | [] => some []
  | item :: rest =>
    match value? item, values? rest with
    | some v, some vs => some (v :: vs)
    | _, _ => none

/-- The members of an object as written, with their values. -/
def memberValues? : List (String × Written) → Option (List (String × Json))
  | [] => some []
  | (key, item) :: rest =>
    match value? item, memberValues? rest with
    | some v, some ms => some ((key, v) :: ms)
    | _, _ => none

end

/-- Whether every part can be used. -/
def isUsable (w : Written) : Bool := w.value?.isSome

mutual

/-- How many containers stand inside each other. -/
def depth : Written → Nat
  | .array items => 1 + depthOfItems items
  | .object members => 1 + depthOfMembers members
  | _ => 0

/-- The greatest depth of the items of an array. -/
def depthOfItems : List Written → Nat
  | [] => 0
  | item :: rest => max (depth item) (depthOfItems rest)

/-- The greatest depth of the members of an object. -/
def depthOfMembers : List (String × Written) → Nat
  | [] => 0
  | (_, item) :: rest => max (depth item) (depthOfMembers rest)

end

mutual

/-- A JSON value as the text of it would be read. -/
def ofJson : Json → Written
  | .null => .null
  | .bool b => .bool b
  | .number n => .number n
  | .string s => .string s
  | .array items => .array (ofItems items)
  | .object members => .object (ofMembers members)

/-- The items of an array as written. -/
def ofItems : List Json → List Written
  | [] => []
  | item :: rest => ofJson item :: ofItems rest

/-- The members of an object as written. -/
def ofMembers : List (String × Json) → List (String × Written)
  | [] => []
  | (key, item) :: rest => (key, ofJson item) :: ofMembers rest

end

end Written

end OpenApi.Json
