/-
# OpenApi.Decode.Schema -- reading schemas and metadata

A schema is written as an object: `kind` chooses its kind, `description` and `openapi`
belong to the node, and every other key belongs to the kind. What is written under the
keys of the kind must be usable even where nothing reads it.
-/
import OpenApi.Decode.Record
import OpenApi.Schema.Basic

namespace OpenApi

open Json (Written)

namespace Decode

/-! ## Metadata -/

/-- What is said about a parameter. -/
def parameterInfo? (nothing : Nothing) (w : Written) : Option ParameterInfo := do
  let fields ← object? w
  let name ← optional? fields "name" string?
  let location ← optional? fields "in" (name? nothing Location.ofText?)
  let description ← optional? fields "description" string?
  let extra ← rest? fields ["name", "in", "description"]
  return { name, location, description, extra }

/-- What is said about a schema. -/
def metadata? (nothing : Nothing) (w : Written) : Option Metadata := do
  let members ← object? w
  let parameter ← optional? members "param" (parameterInfo? nothing)
  let fields ← rest? members ["param"]
  return { parameter, fields }

/-! ## Checks -/

/-- The names of string checks in order. -/
def stringCheckNames : List String :=
  ["min", "max", "length", "email", "url", "uuid", "datetime", "regex"]

/-- A check on a string. -/
def stringCheck? (w : Written) : Option StringCheck := do
  let (name, fields) ← choice? "check" (tag? stringCheckNames) w
  let bound (make : Nat → StringCheck) : Option StringCheck := do
    let fields ← record? ["value"] fields
    return make (← required? fields "value" length?)
  let plain (check : StringCheck) : Option StringCheck := (record? [] fields).map fun _ => check
  match name with
  | "min" => bound .min
  | "max" => bound .max
  | "length" => bound .length
  | "email" => plain .email
  | "url" => plain .url
  | "uuid" => plain .uuid
  | "datetime" => plain .datetime
  | "regex" =>
    let fields ← record? ["pattern"] fields
    return .regex (← required? fields "pattern" string?)
  | _ => none

/-- The names of number checks in order. -/
def numberCheckNames : List String := ["min", "max", "multipleOf", "int", "finite"]

/-- A check on a number, with the tags that `tag?` reads. -/
def numberCheckWith? (tag? : Written → Option String) (w : Written) : Option NumberCheck := do
  let (name, fields) ← choice? "check" tag? w
  let bound (make : Binary64 → Bool → NumberCheck) : Option NumberCheck := do
    let fields ← record? ["value", "inclusive"] fields
    return make (← required? fields "value" double?) (← required? fields "inclusive" bool?)
  match name with
  | "min" => bound .min
  | "max" => bound .max
  | "multipleOf" =>
    let fields ← record? ["value"] fields
    return .multipleOf (← required? fields "value" double?)
  | "int" => (record? [] fields).map fun _ => .int
  | "finite" => (record? [] fields).map fun _ => .finite
  | _ => none

/-- A check on a number. -/
def numberCheck? : Written → Option NumberCheck := numberCheckWith? (tag? numberCheckNames)

/-- A list of checks on a number that is a text of its own. There a tag is a name, and every
part must be usable. -/
def numberChecks? (w : Written) : Option (List NumberCheck) :=
  if w.isUsable then list? (numberCheckWith? (tagName? numberCheckNames)) w else none

/-- The treatment of unknown keys with the given spelling. -/
def unknownKeysOfText? : String → Option UnknownKeys
  | "strip" => some .strip
  | "strict" => some .strict
  | "passthrough" => some .passthrough
  | _ => none

/-! ## Kinds -/

/-- The names of kinds in order. -/
def kindNames : List String :=
  ["null", "string", "number", "bigint", "boolean", "literal", "enum", "nativeEnum", "object",
    "array", "tuple", "union", "discriminatedUnion", "intersection", "record", "unknown", "any",
    "date", "effects", "optional", "nullable", "default", "branded", "readonly", "pipeline",
    "never", "void", "undefined", "map", "set", "promise"]

/-- A kind by its name, where `below` reads the schemas under it. -/
def kind? (below : Written → Option Schema) (name : String) (fields : Fields) :
    Option (Schema.Kind Schema) :=
  match name with
  | "null" => some .null
  | "string" => do return .string (← defaulted? fields "checks" [] (list? stringCheck?))
  | "number" => do return .number (← defaulted? fields "checks" [] (list? numberCheck?))
  | "bigint" => do return .bigint (← defaulted? fields "checks" [] (list? numberCheck?))
  | "boolean" => some .boolean
  | "literal" => do return .literal (← required? fields "value" Written.value?)
  | "enum" => do return .enumeration (← required? fields "values" (list? string?))
  | "nativeEnum" => do return .nativeEnum (← required? fields "values" (map? Written.value?))
  | "object" => do
    let shape ← required? fields "shape" (map? below)
    let treatment ←
      defaulted? fields "unknownKeys" .strip (name? .nullOrEmpty unknownKeysOfText?)
    let catchall ← optional? fields "catchall" below
    return .object shape treatment catchall
  | "array" => do
    let element ← required? fields "element" below
    let least ← optional? fields "minLength" length?
    let most ← optional? fields "maxLength" length?
    let exact ← optional? fields "exactLength" length?
    return .array element least most exact
  | "tuple" => do return .tuple (← required? fields "items" (list? below))
  | "union" => do return .union (← required? fields "options" (list? below))
  | "discriminatedUnion" => do
    let discriminator ← required? fields "discriminator" string?
    let options ← required? fields "options" (list? below)
    return .discriminatedUnion discriminator options
  | "intersection" => do
    return .intersection (← required? fields "left" below) (← required? fields "right" below)
  | "record" => do
    return .record (← optional? fields "key" below) (← required? fields "value" below)
  | "unknown" => some .unknown
  | "any" => some .any
  | "date" => some .date
  | "effects" => do return .effects (← required? fields "inner" below)
  | "optional" => do return .optional (← required? fields "inner" below)
  | "nullable" => do return .nullable (← required? fields "inner" below)
  | "default" => do
    return .default (← required? fields "inner" below) (← required? fields "value" Written.value?)
  | "branded" => do
    return .branded (← required? fields "inner" below) (← optional? fields "brand" string?)
  | "readonly" => do return .readonly (← required? fields "inner" below)
  | "pipeline" => do
    return .pipeline (← required? fields "in" below) (← required? fields "out" below)
  | "never" => some .never
  | "void" => some .void
  | "undefined" => some .undefined
  | "map" => do return .map (← required? fields "key" below) (← required? fields "value" below)
  | "set" => do return .set (← required? fields "item" below)
  | "promise" => do return .promise (← required? fields "inner" below)
  | _ => none

/-! ## Labels -/

/-- The link to an extended object. -/
def parent? (node : Written → Option Schema) (w : Written) : Option (Schema.Parent Schema) := do
  let fields ← record? ["refId", "schema"] w
  let refId ← required? fields "refId" string?
  let schema ← required? fields "schema" node
  return { refId, schema }

/-- What a node is called. -/
def identity? (node : Written → Option Schema) (w : Written) :
    Option (Schema.Identity Schema) := do
  let fields ← record? ["refId", "extendedFrom"] w
  let refId ← optional? fields "refId" string?
  let parent ← optional? fields "extendedFrom" (parent? node)
  return { refId, parent }

/-- What a node carries for the document. -/
def label? (node : Written → Option Schema) (nothing : Nothing) (w : Written) :
    Option (Schema.Label Schema) := do
  let fields ← record? ["internal", "metadata"] w
  let identity ← optional? fields "internal" (identity? node)
  let metadata ← optional? fields "metadata" (metadata? nothing)
  return { identity, metadata }

/-! ## Nodes -/

/-- The keys of a node that do not belong to its kind. -/
def nodeKeys : List String := ["description", "openapi"]

/-- A node, where `node` reads the schemas under it. In the schemas of the kind an empty
object counts as nothing; the schema of a parent link is read like the node itself. -/
def nodeWith? (node : Nothing → Written → Option Schema) (nothing : Nothing) (w : Written) :
    Option Schema := do
  let fields ← object? w
  let own := others fields nodeKeys
  let description ← optional? fields "description" string?
  let label ← optional? fields "openapi" (label? (node nothing) nothing)
  if own.all fun f => f.2.isUsable then
    let name ← required? own "kind" (tag? kindNames)
    let kind ← kind? (node .nullOrEmpty) name (others own ["kind"])
    return .node kind description label
  else none

/-- A schema of a tree that is at most so deep. -/
def schemaWithin? : Nat → Nothing → Written → Option Schema
  | 0, _, _ => none
  | depth + 1, nothing, w => nodeWith? (schemaWithin? depth) nothing w

/-- A schema. -/
def schema? (nothing : Nothing) (w : Written) : Option Schema :=
  schemaWithin? w.depth nothing w

end Decode

end OpenApi
