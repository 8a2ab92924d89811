/-
# OpenApi.Reference -- references to components

Every component has a path from the root of the document: its group and its name. A
reference object is an object whose one key is `$ref`.
-/
import OpenApi.Json.Basic

namespace OpenApi

/-- The members of a compiled object, in order. -/
abbrev Fragment := Entries Json

namespace Reference

/-- The path of a component. -/
def path (group name : String) : String := "#/components/" ++ group ++ "/" ++ name

/-- The path of a named schema. -/
def schemaPath (refId : String) : String := path "schemas" refId

/-- The path of a named parameter. -/
def parameterPath (refId : String) : String := path "parameters" refId

/-- A reference to a path. -/
def toPath (path : String) : Fragment := [("$ref", .string path)]

/-- A reference to a named schema. -/
def toSchema (refId : String) : Fragment := toPath (schemaPath refId)

/-- A reference to a named parameter. -/
def toParameter (refId : String) : Fragment := toPath (parameterPath refId)

end Reference

end OpenApi
