/-
# OpenApi.Json.Basic -- JSON values and their equality

A JSON number is an integer or a finite double; the two are never equal, even where
they have the same value. An object keeps the order of its members, but equality of
values looks past it: two objects are the same when they have the same keys with the
same values.
-/
import OpenApi.Binary64
import OpenApi.Entries

namespace OpenApi

/-- A JSON number: an integer, or a double. -/
inductive Json.Number where
  | int (value : Int)
  | double (value : Binary64.Finite)
  deriving DecidableEq, Repr

/-- A JSON value. The members of an object are in order and carry distinct keys. -/
inductive Json where
  | null
  | bool (value : Bool)
  | number (value : Json.Number)
  | string (value : String)
  | array (items : List Json)
  | object (members : List (String × Json))
  deriving Inhabited

namespace Json

/-! ## Numbers -/

/-- Equality of numbers: integers with integers, doubles with doubles. -/
def Number.same : Number → Number → Bool
  | .int a, .int b => a == b
  | .double a, .double b => a.same b
  | _, _ => false

/-- The double nearest to a number. -/
def Number.toBinary64 : Number → Binary64
  | .int i => Binary64.ofInt i
  | .double d => .finite d

/-- An integer as a JSON value. -/
def int (i : Int) : Json := .number (.int i)

/-- A natural number as a JSON value. -/
def nat (n : Nat) : Json := .number (.int n)

/-- A double as a JSON value: what is not finite becomes `null`. -/
def ofBinary64 : Binary64 → Json
  | .finite d => .number (.double d)
  | .infinite _ => .null
  | .nan => .null

/-- A list of texts as a JSON array. -/
def strings (texts : List String) : Json := .array (texts.map .string)

/-! ## Views -/

/-- Whether a value is `null`. -/
def isNull : Json → Bool
  | .null => true
  | _ => false

/-- Whether a value is a string. -/
def isString : Json → Bool
  | .string _ => true
  | _ => false

/-- Whether a value is a number. -/
def isNumber : Json → Bool
  | .number _ => true
  | _ => false

/-- The text of a string value. -/
def string? : Json → Option String
  | .string s => some s
  | _ => none

/-- The member of an object with the given key. -/
def member? : Json → String → Option Json
  | .object members, key => Entries.get? members key
  | _, _ => none

/-! ## Equality -/

mutual

/-- Equality of values: objects regardless of the order of their members. -/
def same : Json → Json → Bool
  | .null, .null => true
  | .bool a, .bool b => a == b
  | .number a, .number b => a.same b
  | .string a, .string b => a == b
  | .array xs, .array ys => sameItems xs ys
  | .object xs, .object ys => xs.length == ys.length && sameMembers xs ys
  | _, _ => false

/-- Whether two arrays have equal items in the same places. -/
def sameItems : List Json → List Json → Bool
  | [], [] => true
  | x :: xs, y :: ys => same x y && sameItems xs ys
  | _, _ => false

/-- Whether every member of one object has an equal one under its key in the other. -/
def sameMembers : List (String × Json) → List (String × Json) → Bool
  | [], _ => true
  | (key, x) :: xs, ys =>
    (match Entries.get? ys key with
      | some y => same x y
      | none => false) && sameMembers xs ys

end

/-- Whether a list of values has one equal to the given value. -/
def isAmong (value : Json) (values : List Json) : Bool := values.any fun v => v.same value

/-- The distinct values of a list, each where it is first found. -/
def distinct (values : List Json) : List Json :=
  values.foldl (fun found value => if value.isAmong found then found else found ++ [value]) []

end Json

end OpenApi
