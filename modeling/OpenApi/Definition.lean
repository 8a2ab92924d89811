/-
# OpenApi.Definition -- what is submitted for a document

A definition is a schema, a parameter, a finished component, a route or a webhook. They
may be submitted in any order: generation takes them by rank, so that whatever a route
may refer to is compiled before it, and keeps the order of submission within a rank.
-/
import OpenApi.Operation.Basic
import OpenApi.Reference

namespace OpenApi

/-- A finished component under a group and a name. -/
structure RawComponent where
  group : String
  name : String
  value : Json

/-- One submission. A `plain` schema and a `schema` differ in rank only. -/
inductive Definition where
  | plain (schema : Schema)
  | schema (schema : Schema)
  | parameter (schema : Schema)
  | component (component : RawComponent)
  | route (route : Route)
  | webhook (route : Route)

namespace Definition

/-- The place of a definition in generation. -/
def rank : Definition → Nat
  | plain _ => 0
  | schema _ => 1
  | parameter _ => 2
  | component _ => 3
  | route _ => 4
  | webhook _ => 5

/-- The definitions by rank, those of one rank in their given order. -/
def byRank (definitions : List Definition) : List Definition :=
  (List.range 6).flatMap fun rank => definitions.filter fun d => d.rank == rank

end Definition

/-! ## Submitting -/

/-- Definitions in order of submission. -/
structure Registry where
  definitions : List Definition := []

namespace Registry

/-- Submits a definition. -/
def submit (registry : Registry) (definition : Definition) : Registry :=
  ⟨registry.definitions ++ [definition]⟩

/-- Names a schema and submits it. The named schema is what refers to the component. -/
def register (registry : Registry) (refId : String) (s : Schema) : Schema × Registry :=
  let named := s.named refId
  (named, registry.submit (.schema named))

/-- Names a parameter and submits it. Its name is its identifier, unless it has one. -/
def registerParameter (registry : Registry) (refId : String) (s : Schema) : Schema × Registry :=
  let named := s.named refId
  let parameter :=
    if (s.metadata.parameter.bind (·.name)).isSome then named
    else named.parameter { name := some refId }
  (parameter, registry.submit (.parameter parameter))

/-- Submits a finished component; the answer is its path. -/
def registerComponent (registry : Registry) (component : RawComponent) : String × Registry :=
  (Reference.path component.group component.name, registry.submit (.component component))

end Registry

end OpenApi
