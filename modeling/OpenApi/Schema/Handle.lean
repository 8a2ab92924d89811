/-
# OpenApi.Schema.Handle -- shared schema nodes

A handle is a schema with the number of the node it was built as. Copying a handle
shares the node; building makes another node, even where it changes nothing. So two
handles can hold equal schemas and still not be the same node.
-/
import OpenApi.Schema.Builder

namespace OpenApi.Schema

/-- A schema and the number of its node. -/
structure Handle where
  node : Nat
  schema : Schema
  deriving Inhabited

namespace Handle

/-- Building with a supply of node numbers: the state is the next one. -/
abbrev Building := StateM Nat

/-- A schema as a node of its own. -/
def fresh (s : Schema) : Building Handle := fun next => (⟨next, s⟩, next + 1)

/-- What a builder makes of a handle is a node of its own. -/
def change (h : Handle) (build : Schema → Schema) : Building Handle := fresh (build h.schema)

/-- An extension is a node of its own, unless there is no object to extend. -/
def extend (h : Handle) (fields : List (String × Schema)) : Building Handle :=
  if h.schema.isObject then h.change (·.extend fields) else pure h

/-- Whether two handles share one node. -/
def sameNode (a b : Handle) : Bool := a.node == b.node

end Handle

end OpenApi.Schema
