/-
# OpenApi.Schema.Builder -- building schemas

Constructors make a node of one kind. Wrappers put a node around a schema. Checks and
settings change the kind of the topmost node and leave every kind that they do not apply
to as it is. Labels are written onto the topmost node, starting from what is visible
through its wrappers, so that a later call overrides an earlier one key by key.
-/
import OpenApi.Schema.Acceptance
import OpenApi.Schema.Visible

namespace OpenApi.Schema

/-! ## Constructors -/

/-- An object that strips unknown keys. A repeated key keeps its first place and takes its
last schema. -/
def object (shape : List (String × Schema)) : Schema :=
  ofKind (.object (Entries.collect shape) .strip none)

/-- An array without bounds. -/
def array (element : Schema) : Schema := ofKind (.array element none none none)

/-- An enumeration of named members. -/
def nativeEnum (members : List (String × Json)) : Schema :=
  ofKind (.nativeEnum (Entries.collect members))

/-! ## Wrappers -/

/-- Accepts a missing value too. -/
def optional (s : Schema) : Schema := ofKind (.optional s)

/-- Accepts `null` too. -/
def nullable (s : Schema) : Schema := ofKind (.nullable s)

/-- Accepts `null` and a missing value too. -/
def nullish (s : Schema) : Schema := s.nullable.optional

/-- Takes a value where none is given. -/
def withDefault (s : Schema) (value : Json) : Schema := ofKind (.default s value)

/-- Marks the accepted values with a name. -/
def brand (s : Schema) (name : String) : Schema := ofKind (.branded s (some name))

/-- Marks the accepted values as read only. -/
def readonly (s : Schema) : Schema := ofKind (.readonly s)

/-- Adds a step that refines or transforms the accepted values. -/
def refine (s : Schema) : Schema := ofKind (.effects s)

/-- Passes the accepted values on to another schema. -/
def pipe (s output : Schema) : Schema := ofKind (.pipeline s output)

/-! ## Checks and settings -/

/-- Changes the kind of the topmost node. -/
def mapKind (f : Kind Schema → Kind Schema) : Schema → Schema
  | node kind description label => node (f kind) description label

/-- Adds a check to a string. -/
def stringCheck (s : Schema) (check : StringCheck) : Schema :=
  s.mapKind fun
    | .string checks => .string (checks ++ [check])
    | kind => kind

/-- Adds a check to a number or a big integer. -/
def numberCheck (s : Schema) (check : NumberCheck) : Schema :=
  s.mapKind fun
    | .number checks => .number (checks ++ [check])
    | .bigint checks => .bigint (checks ++ [check])
    | kind => kind

/-- The least length of a string or an array. -/
def minLength (s : Schema) (n : Nat) : Schema :=
  s.mapKind fun
    | .string checks => .string (checks ++ [.min n])
    | .array element _ most exact => .array element (some n) most exact
    | kind => kind

/-- The greatest length of a string or an array. -/
def maxLength (s : Schema) (n : Nat) : Schema :=
  s.mapKind fun
    | .string checks => .string (checks ++ [.max n])
    | .array element least _ exact => .array element least (some n) exact
    | kind => kind

/-- The exact length of a string or an array. -/
def length (s : Schema) (n : Nat) : Schema :=
  s.mapKind fun
    | .string checks => .string (checks ++ [.length n])
    | .array element least most _ => .array element least most (some n)
    | kind => kind

/-- What an object does with keys outside its shape. -/
def unknownKeys (s : Schema) (treatment : UnknownKeys) : Schema :=
  s.mapKind fun
    | .object shape _ catchall => .object shape treatment catchall
    | kind => kind

/-- The schema of the keys outside an object's shape. -/
def catchall (s others : Schema) : Schema :=
  s.mapKind fun
    | .object shape treatment _ => .object shape treatment (some others)
    | kind => kind

/-- A number that has to be an integer. -/
def integer : Schema := (ofKind (.number [])).numberCheck .int

/-! ## Labels -/

/-- Describes the topmost node. -/
def describe (s : Schema) (text : String) : Schema :=
  match s with
  | node kind _ label => node kind (some text) label

/-- Replaces the label of the topmost node. -/
def withLabel (s : Schema) (label : Label Schema) : Schema :=
  match s with
  | node kind description _ => node kind description (some label)

/-- Merges metadata over what is visible. -/
def annotate (s : Schema) (metadata : Metadata) : Schema :=
  let visible := s.visibleLabel.getD {}
  let merged := match visible.metadata with
    | some existing => existing.merge metadata
    | none => metadata
  s.withLabel { visible with metadata := some merged }

/-- Gives the schema an identifier, which makes it a named component. -/
def named (s : Schema) (refId : String) : Schema :=
  let visible := s.visibleLabel.getD {}
  let identity := visible.identity.getD {}
  s.withLabel { visible with identity := some { identity with refId := some refId } }

/-- Merges parameter data over what is visible. -/
def parameter (s : Schema) (info : ParameterInfo) : Schema := s.annotate (.ofParameter info)

/-! ## Extension -/

/-- The link that an extension of `s` carries: to `s` itself if it has an identifier, else
the link that `s` carries. -/
def extensionLink (s : Schema) : Option (Parent Schema) :=
  match s.refId? with
  | some refId => some ⟨refId, s⟩
  | none => s.identity?.bind (·.parent)

/-- An object with more fields. It keeps what is said about the object it extends, but not
its identifier. Any other kind is returned as it is. -/
def extend (s : Schema) (fields : List (String × Schema)) : Schema :=
  match s with
  | node (.object shape treatment catchall) description label =>
    let parent := node (.object shape treatment catchall) description label
    node (.object (Entries.extend shape fields) treatment catchall) description
      (some {
        identity := some { refId := none, parent := parent.extensionLink }
        metadata := parent.ownMetadata? })
  | other => other

end OpenApi.Schema
