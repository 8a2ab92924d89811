/-
# OpenApi.Decode.Record -- reading records from written JSON

A *record* is read from an object by its keys. A key that the record knows may be given
once; keys that it does not know are skipped, or collected where the record keeps them.
Some records may also be written as arrays of their fields in order.

A *choice* is a record whose first reading is a tag: a name, or the place of the name
among the names that there are. A *name* from a closed vocabulary is a string, or an
object with the string as its only key and nothing beside it.
-/
import OpenApi.Json.Written

namespace OpenApi.Decode

open Json (Written)

/-! ## Scalars -/

/-- A string. -/
def string? : Written → Option String
  | .string s => some s
  | _ => none

/-- A Boolean. -/
def bool? : Written → Option Bool
  | .bool b => some b
  | _ => none

/-- A length: an integer from zero up to what fits in 64 bits. -/
def length? : Written → Option Nat
  | .number (.int i) => if 0 ≤ i then some i.toNat else none
  | _ => none

/-- A number as the nearest double. -/
def double? : Written → Option Binary64
  | .number n => some n.toBinary64
  | _ => none

/-! ## Names -/

/-- What counts as nothing beside a name that is the key of an object. -/
inductive Nothing where
  | null
  | nullOrEmpty
  deriving DecidableEq, Repr

/-- Whether a written value counts as nothing. -/
def Nothing.allows : Nothing → Written → Bool
  | _, .null => true
  | nullOrEmpty, .object [] => true
  | _, _ => false

/-- A name from a closed vocabulary. -/
def name? {α : Type} (nothing : Nothing) (ofText? : String → Option α) : Written → Option α
  | .string s => ofText? s
  | .object [(s, payload)] => if nothing.allows payload then ofText? s else none
  | _ => none

/-! ## Lists and maps -/

/-- An array of what `decode` reads. -/
def list? {α : Type} (decode : Written → Option α) : Written → Option (List α)
  | .array items => items.mapM decode
  | _ => none

/-- An object with a value of what `decode` reads under each key. A repeated key keeps its
first place and takes its last value. -/
def map? {α : Type} (decode : Written → Option α) : Written → Option (Entries α)
  | .object members =>
    (members.mapM fun m => (decode m.2).map fun value => (m.1, value)).map Entries.collect
  | _ => none

/-! ## Records -/

/-- The members of a record as they were written. -/
abbrev Fields := List (String × Written)

/-- The members of a record that is written as an object. -/
def object? : Written → Option Fields
  | .object members => some members
  | _ => none

/-- The members of a record that may also be written as an array of its fields in order,
the last ones left out or not. -/
def record? (names : List String) : Written → Option Fields
  | .object members => some members
  | .array items => if items.length ≤ names.length then some (names.zip items) else none
  | _ => none

/-- The value of a known key, if it is given. A key given twice is refused. -/
def single? (fields : Fields) (key : String) : Option (Option Written) :=
  match fields.filter fun f => f.1 == key with
  | [] => some none
  | [(_, w)] => some (some w)
  | _ => none

/-- A key that has to be given. -/
def required? {α : Type} (fields : Fields) (key : String) (decode : Written → Option α) :
    Option α :=
  match single? fields key with
  | some (some w) => decode w
  | _ => none

/-- A key that may be left out or be `null`. -/
def optional? {α : Type} (fields : Fields) (key : String) (decode : Written → Option α) :
    Option (Option α) :=
  match single? fields key with
  | some (some .null) => some none
  | some (some w) => (decode w).map some
  | some none => some none
  | none => none

/-- A key that may be left out. -/
def defaulted? {α : Type} (fields : Fields) (key : String) (default : α)
    (decode : Written → Option α) : Option α :=
  match single? fields key with
  | some (some w) => decode w
  | some none => some default
  | none => none

/-- The fields other than those with the given keys. -/
def others (fields : Fields) (known : List String) : Fields :=
  fields.filter fun f => !known.contains f.1

/-- The values of all other keys, for a record that keeps them. -/
def rest? (fields : Fields) (known : List String) : Option (Entries Json) :=
  (Written.memberValues? (others fields known)).map Entries.collect

/-! ## Choices -/

/-- A tag that is a name. -/
def tagName? (names : List String) : Written → Option String
  | .string s => if names.contains s then some s else none
  | _ => none

/-- A tag that is a name or the place of a name. -/
def tag? (names : List String) : Written → Option String
  | .number (.int i) => if 0 ≤ i then names[i.toNat]? else none
  | w => tagName? names w

/-- The tag of a choice and the record beside it: the other members of an object, or the
other items of an array. -/
def choice? (key : String) (tag? : Written → Option String) : Written → Option (String × Written)
  | .object members => do
    let name ← required? members key tag?
    return (name, .object (others members [key]))
  | .array (tag :: fields) => (tag? tag).map fun name => (name, .array fields)
  | _ => none

end OpenApi.Decode
