/-
# OpenApi.Schema.Visible -- what a schema is called and what is said about it

A label or a description may sit on a wrapper or below it. What is *visible* on a schema
is what its own node carries, else what the innermost node under its wrappers carries.
-/
import OpenApi.Schema.Basic

namespace OpenApi.Schema

/-! ## Looking under wrappers -/

/-- The innermost node: what is left when every wrapper is taken off. -/
def core : Schema → Schema
  | node (.optional inner) _ _ => core inner
  | node (.nullable inner) _ _ => core inner
  | node (.branded inner _) _ _ => core inner
  | node (.default inner _) _ _ => core inner
  | node (.readonly inner) _ _ => core inner
  | node (.effects inner) _ _ => core inner
  | s => s

/-- The schema under the nullable wrappers at the top. -/
def nonNullable : Schema → Schema
  | node (.nullable inner) _ _ => nonNullable inner
  | s => s

/-- The default value, looked up under optional, nullable and effects wrappers. -/
def default? : Schema → Option Json
  | node (.optional inner) _ _ => default? inner
  | node (.nullable inner) _ _ => default? inner
  | node (.effects inner) _ _ => default? inner
  | node (.default _ value) _ _ => some value
  | _ => none

/-- The default value of the input of the pipeline under the wrappers, if there is one. -/
def inputDefault? : Schema → Option Json
  | node (.optional inner) _ _ => inputDefault? inner
  | node (.nullable inner) _ _ => inputDefault? inner
  | node (.branded inner _) _ _ => inputDefault? inner
  | node (.default inner _) _ _ => inputDefault? inner
  | node (.readonly inner) _ _ => inputDefault? inner
  | node (.effects inner) _ _ => inputDefault? inner
  | node (.pipeline input _) _ _ => input.default?.or (inputDefault? input)
  | _ => none

/-! ## Labels and descriptions -/

/-- The visible label. -/
def visibleLabel (s : Schema) : Option (Label Schema) := s.label.or s.core.label

/-- The visible description. -/
def visibleDescription (s : Schema) : Option String := s.description.or s.core.description

/-- The visible identity. -/
def identity? (s : Schema) : Option (Identity Schema) := s.visibleLabel.bind (·.identity)

/-- The visible identifier. -/
def refId? (s : Schema) : Option String := s.identity?.bind (·.refId)

/-- The visible metadata record. -/
def ownMetadata? (s : Schema) : Option Metadata := s.visibleLabel.bind (·.metadata)

/-! ## Metadata with the description folded in -/

/-- What is said about a schema: its metadata record over its description. -/
def metadata (s : Schema) : Metadata :=
  let described : Metadata :=
    { fields := Entries.insertSome [] "description" (s.visibleDescription.map .string) }
  match s.ownMetadata? with
  | some own => described.merge own
  | none => described

/-- The same for a schema used as a parameter, where the description belongs to the
parameter. -/
def parameterMetadata (s : Schema) : Metadata :=
  let own := s.ownMetadata?.getD {}
  let described : ParameterInfo := { description := s.visibleDescription }
  { own with parameter := Metadata.mergeParameter (some described) own.parameter }

/-- The document keys that are written onto the compiled schema. -/
def documentKeys (s : Schema) : Entries Json := s.metadata.keys

/-- The `type` key that stands in for the compiled kind, if there is one. -/
def typeOverride? (s : Schema) : Option Json := s.documentKeys.get? "type"

/-- The visible identifier of the object that a schema extends. -/
def extendsRef? (s : Schema) : Option String :=
  (s.identity?.bind (·.parent)).map (·.refId)

end OpenApi.Schema
