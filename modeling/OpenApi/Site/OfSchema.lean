/-
# OpenApi.Site.OfSchema -- settling a schema

`Schema.shape` looks through wrappers and pipelines down to the kind that decides what is
compiled, and `Schema.site` puts what is visible on the schema around its shape. The
recursion is on the schema tree alone.

An effects wrapper is looked through like the others, except where it is itself the input
of a pipeline: there the schema under it is compiled in place.
-/
import OpenApi.Discriminator
import OpenApi.Schema.Acceptance
import OpenApi.Site.Basic

namespace OpenApi.Schema

/-! ## Shapes without schemas below -/

/-- The keys of a string with checks. An exact length gives both bounds. -/
def stringKeys (checks : List StringCheck) : Fragment :=
  let exact := StringCheck.exactLength? checks
  let least := Entries.insertSome [] "minLength" ((exact.or (StringCheck.minLength? checks)).map .nat)
  let most := least.insertSome "maxLength" ((exact.or (StringCheck.maxLength? checks)).map .nat)
  let format := most.insertSome "format" ((StringCheck.format? checks).map .string)
  format.insertSome "pattern" ((StringCheck.pattern? checks).map .string)

/-- The shape of a literal: a type with one value. -/
def literalShape (value : Json) : Shape :=
  let only : Fragment := [("enum", .array [value])]
  match value with
  | .null => .null
  | .string _ => .scalar "string" [] only
  | .number _ => .scalar "number" [] only
  | .bool _ => .scalar "boolean" [] only
  | _ => .invalid (.unsupported .literalType)

/-- The shape of named members: all strings, or all numbers. -/
def nativeEnumShape (members : List (String × Json)) : Shape :=
  let values := Entries.values members
  let listed : Fragment := [("enum", .array values)]
  if values.all Json.isString then .scalar "string" [] listed
  else if values.all Json.isNumber then .scalar "integer" [] listed
  else .invalid (.unsupported .mixedEnum)

/-- The keys of a shape that must be present. -/
def requiredKeys (shape : List (String × Schema)) : List String :=
  (shape.filter fun field => !field.2.isOptional).map (·.1)

/-- What an object says about other keys, given the site of its catchall. A catchall that
accepts nothing is no catchall. -/
def additional (treatment : UnknownKeys) (catchall : Option Schema) (site : Option Site) :
    Additional Site :=
  let closed : Additional Site := if treatment = .strict then .forbidden else .unspecified
  match catchall, site with
  | some (node .never _ _), _ => closed
  | _, some site => .schema site
  | _, none => closed

/-! ## Sites from shapes -/

/-- The site of a schema, given its shape. -/
def siteOf (s : Schema) (shape : Shape) : Site :=
  .mk s.refId? s.documentKeys s.isNullable (s.default?.or s.inputDefault?) shape

/-- The members of one side of an intersection, given the side's shape. -/
def conjuncts (s : Schema) (shape : Shape) : List Site :=
  match s.kind, shape with
  | .intersection .., .allOf parts => parts
  | _, shape => [s.siteOf shape]

/-- The alternatives that one option of a union stands for, given the option's shape. Null
is left to the union: a nullable wrapper at the top of an option is taken off. -/
def alternatives (s : Schema) (shape : Shape) : List Site :=
  match s.kind, shape with
  | .union _, .anyOf options => options
  | _, shape => [s.nonNullable.siteOf shape]

/-- The shape of an extension of an object, given the shape of that object. The parent has
properties of its own only if it is an object under its wrappers. -/
def extensionShape (members : Members Site) (refId : String) (parent : Schema) (shape : Shape) :
    Shape :=
  let base := if parent.core.isObject then (shape.properties, shape.required) else ([], [])
  .extension members refId (parent.siteOf shape) base.1 base.2

mutual

/-- The shape of a schema. `piped` says that the schema is the input of a pipeline. -/
def shape (piped : Bool) : Schema → Shape
  | node .null _ _ => .null
  | node (.string checks) _ _ => .scalar "string" [] (stringKeys checks)
  | node (.number checks) _ _ =>
    .scalar (if NumberCheck.isInteger checks then "integer" else "number") checks []
  | node (.bigint checks) _ _ => .scalar "integer" checks [("format", .string "int64")]
  | node .boolean _ _ => .scalar "boolean" [] []
  | node (.literal value) _ _ => literalShape value
  | node (.enumeration values) _ _ => .scalar "string" [] [("enum", .strings values)]
  | node (.nativeEnum members) _ _ => nativeEnumShape members
  | node (.object fields treatment catchall) _ label =>
    let members : Members Site :=
      ⟨fieldSites fields, requiredKeys fields, additional treatment catchall (optionSite catchall)⟩
    match label with
    | some ⟨some ⟨_, some ⟨refId, parent⟩⟩, _⟩ =>
      extensionShape members refId parent (shape false parent)
    | _ => .object members
  | node (.array element least most exact) _ _ =>
    .array (element.siteOf (shape false element)) (exact.or least) (exact.or most)
  | node (.tuple items) _ _ => .tuple (sites items)
  | node (.union options) _ _ => .anyOf (optionSites options)
  | node (.discriminatedUnion name options) _ _ =>
    .oneOf (sites options) (Discriminator.object? name options)
  | node (.intersection left right) _ _ =>
    .allOf (left.conjuncts (shape false left) ++ right.conjuncts (shape false right))
  | node (.record _ value) _ _ => .dictionary (value.siteOf (shape false value))
  | node .unknown _ _ => .anything
  | node .any _ _ => .anything
  | node .date _ _ => .scalar "string" [] []
  | node (.effects inner) _ _ =>
    if piped then .inline (inner.siteOf (shape false inner)) else shape false inner
  | node (.optional inner) _ _ => shape false inner
  | node (.nullable inner) _ _ => shape false inner
  | node (.default inner _) _ _ => shape false inner
  | node (.branded inner _) _ _ => shape false inner
  | node (.readonly inner) _ _ => shape false inner
  | node (.pipeline input _) _ _ => shape true input
  | node kind description label =>
    .invalid (.unknownKind kind.name (node kind description label).refId?)

/-- The sites of schemas. -/
def sites : List Schema → List Site
  | [] => []
  | s :: rest => s.siteOf (shape false s) :: sites rest

/-- The sites of the alternatives of a union. -/
def optionSites : List Schema → List Site
  | [] => []
  | s :: rest => s.alternatives (shape false s) ++ optionSites rest

/-- The sites of the fields of an object. -/
def fieldSites : List (String × Schema) → List (String × Site)
  | [] => []
  | (key, s) :: rest => (key, s.siteOf (shape false s)) :: fieldSites rest

/-- The site of a schema that may be absent. -/
def optionSite : Option Schema → Option Site
  | none => none
  | some s => some (s.siteOf (shape false s))

end

/-- A schema settled at a place of its own. -/
def site (s : Schema) : Site := s.siteOf (s.shape false)

end OpenApi.Schema
