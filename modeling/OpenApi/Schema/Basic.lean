/-
# OpenApi.Schema.Basic -- schema trees

A schema is a node with a *kind*, an optional description, and an optional *label*. The
kind says what values the schema accepts and holds the schemas below it; the label says
what the node is called in a document and what is to be written about it there.

A wrapper kind (optional, nullable, default, branded, readonly, effects) has one inner
schema and describes the same values up to the presence of a value, of `null`, or of a
step in the program that checks them.
-/
import OpenApi.Metadata

namespace OpenApi

/-! ## Checks -/

/-- A check on a string. -/
inductive StringCheck where
  | min (length : Nat)
  | max (length : Nat)
  | length (length : Nat)
  | email
  | url
  | uuid
  | datetime
  | regex (pattern : String)
  deriving DecidableEq, Repr

/-- A check on a number. -/
inductive NumberCheck where
  | min (bound : Binary64) (inclusive : Bool)
  | max (bound : Binary64) (inclusive : Bool)
  | multipleOf (factor : Binary64)
  | int
  | finite
  deriving DecidableEq, Repr

/-- What an object does with keys outside its shape. -/
inductive UnknownKeys where
  | strip
  | strict
  | passthrough
  deriving DecidableEq, Repr

namespace StringCheck

/-- The greatest lower bound of the length. -/
def minLength? (checks : List StringCheck) : Option Nat :=
  (checks.filterMap fun | min n => some n | _ => none).max?

/-- The least upper bound of the length. -/
def maxLength? (checks : List StringCheck) : Option Nat :=
  (checks.filterMap fun | max n => some n | _ => none).min?

/-- The first exact length. -/
def exactLength? (checks : List StringCheck) : Option Nat :=
  checks.findSome? fun | length n => some n | _ => none

/-- The name of the format that the checks ask for. Of several, the first of uuid, email,
url and date-time counts. -/
def format? (checks : List StringCheck) : Option String :=
  if checks.contains uuid then some "uuid"
  else if checks.contains email then some "email"
  else if checks.contains url then some "uri"
  else if checks.contains datetime then some "date-time"
  else none

/-- The first pattern. -/
def pattern? (checks : List StringCheck) : Option String :=
  checks.findSome? fun | regex p => some p | _ => none

end StringCheck

/-- Whether the checks ask for an integer. -/
def NumberCheck.isInteger (checks : List NumberCheck) : Bool := checks.contains int

/-! ## Labels -/

/-- The named object that an object was extended from. -/
structure Schema.Parent (σ : Type) where
  refId : String
  schema : σ

/-- What a node is called: its identifier, and the object it extends. -/
structure Schema.Identity (σ : Type) where
  refId : Option String := none
  parent : Option (Schema.Parent σ) := none

/-- What a node carries for the document. -/
structure Schema.Label (σ : Type) where
  identity : Option (Schema.Identity σ) := none
  metadata : Option Metadata := none

/-! ## Kinds and nodes -/

/-- The kinds of schema over schemas of type `σ`. -/
inductive Schema.Kind (σ : Type) where
  | null
  | string (checks : List StringCheck)
  | number (checks : List NumberCheck)
  | bigint (checks : List NumberCheck)
  | boolean
  | literal (value : Json)
  | enumeration (values : List String)
  | nativeEnum (values : List (String × Json))
  | object (shape : List (String × σ)) (unknownKeys : UnknownKeys) (catchall : Option σ)
  | array (element : σ) (minLength maxLength exactLength : Option Nat)
  | tuple (items : List σ)
  | union (options : List σ)
  | discriminatedUnion (discriminator : String) (options : List σ)
  | intersection (left right : σ)
  | record (key : Option σ) (value : σ)
  | unknown
  | any
  | date
  | effects (inner : σ)
  | optional (inner : σ)
  | nullable (inner : σ)
  | default (inner : σ) (value : Json)
  | branded (inner : σ) (brand : Option String)
  | readonly (inner : σ)
  | pipeline (input output : σ)
  | never
  | void
  | undefined
  | map (key value : σ)
  | set (item : σ)
  | promise (inner : σ)

/-- A schema: a node of a schema tree with everything below it. -/
inductive Schema where
  | node (kind : Schema.Kind Schema) (description : Option String)
      (label : Option (Schema.Label Schema))

namespace Schema

/-- The name of a kind. -/
def Kind.name {σ : Type} : Kind σ → String
  | .null => "null"
  | .string _ => "string"
  | .number _ => "number"
  | .bigint _ => "bigint"
  | .boolean => "boolean"
  | .literal _ => "literal"
  | .enumeration _ => "enum"
  | .nativeEnum _ => "nativeEnum"
  | .object .. => "object"
  | .array .. => "array"
  | .tuple _ => "tuple"
  | .union _ => "union"
  | .discriminatedUnion .. => "discriminatedUnion"
  | .intersection .. => "intersection"
  | .record .. => "record"
  | .unknown => "unknown"
  | .any => "any"
  | .date => "date"
  | .effects _ => "effects"
  | .optional _ => "optional"
  | .nullable _ => "nullable"
  | .default .. => "default"
  | .branded .. => "branded"
  | .readonly _ => "readonly"
  | .pipeline .. => "pipeline"
  | .never => "never"
  | .void => "void"
  | .undefined => "undefined"
  | .map .. => "map"
  | .set _ => "set"
  | .promise _ => "promise"

/-- The kind of a node. -/
def kind : Schema → Kind Schema
  | node kind _ _ => kind

/-- The description on a node itself. -/
def description : Schema → Option String
  | node _ description _ => description

/-- The label on a node itself. -/
def label : Schema → Option (Label Schema)
  | node _ _ label => label

/-- A node that has only a kind. -/
def ofKind (kind : Kind Schema) : Schema := node kind none none

instance : Inhabited Schema := ⟨ofKind .null⟩

/-- Whether a node is an object. -/
def isObject (s : Schema) : Bool :=
  match s.kind with
  | .object .. => true
  | _ => false

end Schema

end OpenApi
