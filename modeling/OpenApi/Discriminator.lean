/-
# OpenApi.Discriminator -- telling the options of a union apart by one field

A discriminator names a field and maps each value of it to the option that has that
value. It is written only if every option is a named component. A field has values if it
is a literal or an enumeration under its wrappers; an option that is itself a
discriminated union has the values of its own options, and must have exactly one.
-/
import OpenApi.Json.Printer
import OpenApi.Problem
import OpenApi.Schema.Visible

namespace OpenApi.Discriminator

/-- The kind of a field under its wrappers. -/
def fieldKind (field : Option Schema) : Option (Schema.Kind Schema) :=
  field.map fun s => s.core.kind

/-- The values of a field, as texts; a literal that is not a string counts with its JSON
text. -/
def fieldValues (field : Option Schema) : List String :=
  match fieldKind field with
  | some (.literal (.string text)) => [text]
  | some (.literal value) => [value.compact]
  | some (.enumeration values) => values
  | _ => []

mutual

/-- The values that the field `name` takes in a schema, in order and with repetitions. -/
def valuesIn (name : String) : Schema → List String
  | .node (.optional inner) _ _ => valuesIn name inner
  | .node (.nullable inner) _ _ => valuesIn name inner
  | .node (.branded inner _) _ _ => valuesIn name inner
  | .node (.default inner _) _ _ => valuesIn name inner
  | .node (.readonly inner) _ _ => valuesIn name inner
  | .node (.effects inner) _ _ => valuesIn name inner
  | .node (.discriminatedUnion _ options) _ _ => valuesInAll name options
  | .node (.object shape _ _) _ _ => fieldValues (Entries.get? shape name)
  | _ => []

/-- The values that the field `name` takes in some of the schemas. -/
def valuesInAll (name : String) : List Schema → List String
  | [] => []
  | s :: rest => valuesIn name s ++ valuesInAll name rest

end

/-- The distinct values of the field `name`, in order. -/
def values (name : String) (s : Schema) : List String := (valuesIn name s).eraseDups

/-- The values under which an option is entered in the mapping. -/
def optionValues (name : String) (option : Schema) : Except Problem (List String) :=
  match option.core.kind with
  | .discriminatedUnion .. =>
    match values name option with
    | [value] => .ok [value]
    | several => .error (.unsupported (.discriminatorAmbiguous name several))
  | .object shape _ _ =>
    match fieldKind (Entries.get? shape name) with
    | some (.enumeration members) => .ok members
    | some (.literal (.string value)) => .ok [value]
    | _ => .error (.unsupported (.discriminatorMissing name))
  | _ => .error (.unsupported (.discriminatorMissing name))

/-- The mapping of options with their identifiers, over what is mapped already. -/
def mapping (name : String) (mapped : Fragment) :
    List (String × Schema) → Except Problem Fragment
  | [] => .ok mapped
  | (refId, option) :: rest =>
    match optionValues name option with
    | .error problem => .error problem
    | .ok values =>
      let target := Json.string (Reference.schemaPath refId)
      mapping name (mapped.extend (values.map fun value => (value, target))) rest

/-- The discriminator object of options, if each of them has an identifier. -/
def object? (name : String) (options : List Schema) : Except Problem (Option Json) :=
  match options.mapM fun option => option.refId?.map (·, option) with
  | none => .ok none
  | some labelled =>
    (mapping name [] labelled).map fun entries =>
      some (.object [("propertyName", .string name), ("mapping", .object entries)])

end OpenApi.Discriminator
