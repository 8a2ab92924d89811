/-
# OpenApi.Metadata -- what is said about a schema besides what it accepts

`Metadata` holds document keys that are copied onto the compiled schema and a
description of the parameter that the schema is used for. Merging is field by field: what
the later record says wins, what it leaves open is kept, and keys keep the place where
they were first written.
-/
import OpenApi.Http
import OpenApi.Json.Basic

namespace OpenApi

/-- What is said about a parameter. `extra` holds every other key of the parameter object
(`example`, `deprecated`, `style`, and so on). -/
structure ParameterInfo where
  name : Option String := none
  location : Option Location := none
  description : Option String := none
  extra : Entries Json := []

/-- What is said about a schema: parameter data, and document keys. A `type` key stands in
for everything that would be compiled from the schema's kind. -/
structure Metadata where
  parameter : Option ParameterInfo := none
  fields : Entries Json := []

namespace ParameterInfo

/-- The later record over the earlier one. -/
def merge (earlier later : ParameterInfo) : ParameterInfo where
  name := later.name.or earlier.name
  location := later.location.or earlier.location
  description := later.description.or earlier.description
  extra := earlier.extra.extend later.extra

/-- The keys of the parameter object, null values left out. An extra key `name`, `in` or
`description` overrides the field. -/
def keys (info : ParameterInfo) : Entries Json :=
  let named := Entries.insertSome [] "name" (info.name.map .string)
  let located := named.insertSome "in" (info.location.map fun l => .string l.text)
  let described := located.insertSome "description" (info.description.map .string)
  described.extend (info.extra.filter fun e => !e.2.isNull)

end ParameterInfo

namespace Metadata

/-- Metadata that only says something about a parameter. -/
def ofParameter (info : ParameterInfo) : Metadata := { parameter := some info }

/-- Two optional parameter records, the later over the earlier. -/
def mergeParameter : Option ParameterInfo → Option ParameterInfo → Option ParameterInfo
  | some earlier, some later => some (earlier.merge later)
  | none, later => later
  | earlier, none => earlier

/-- The later record over the earlier one. -/
def merge (earlier later : Metadata) : Metadata where
  parameter := mergeParameter earlier.parameter later.parameter
  fields := earlier.fields.extend later.fields

/-- The document keys, null values left out. -/
def keys (metadata : Metadata) : Entries Json := metadata.fields.filter fun e => !e.2.isNull

end Metadata

end OpenApi
