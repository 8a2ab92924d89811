/-
# OpenApi.Schema.Acceptance -- whether a schema accepts a missing value, or null

Wrappers pass the question on, a pipeline asks its input, a union asks any of its
options and an intersection both of its sides.
-/
import OpenApi.Schema.Basic

namespace OpenApi.Schema

mutual

/-- Whether the schema accepts a missing value. -/
def isOptional : Schema → Bool
  | node (.optional _) _ _ => true
  | node (.default _ _) _ _ => true
  | node .undefined _ _ => true
  | node .void _ _ => true
  | node .any _ _ => true
  | node .unknown _ _ => true
  | node (.nullable inner) _ _ => isOptional inner
  | node (.branded inner _) _ _ => isOptional inner
  | node (.readonly inner) _ _ => isOptional inner
  | node (.effects inner) _ _ => isOptional inner
  | node (.pipeline input _) _ _ => isOptional input
  | node (.union options) _ _ => anyOptional options
  | node (.discriminatedUnion _ options) _ _ => anyOptional options
  | node (.intersection left right) _ _ => isOptional left && isOptional right
  | _ => false

/-- Whether one of the schemas accepts a missing value. -/
def anyOptional : List Schema → Bool
  | [] => false
  | s :: rest => isOptional s || anyOptional rest

end

mutual

/-- Whether the schema accepts `null`. -/
def isNullable : Schema → Bool
  | node (.nullable _) _ _ => true
  | node .null _ _ => true
  | node .any _ _ => true
  | node .unknown _ _ => true
  | node (.literal value) _ _ => value.isNull
  | node (.optional inner) _ _ => isNullable inner
  | node (.default inner _) _ _ => isNullable inner
  | node (.branded inner _) _ _ => isNullable inner
  | node (.readonly inner) _ _ => isNullable inner
  | node (.effects inner) _ _ => isNullable inner
  | node (.pipeline input _) _ _ => isNullable input
  | node (.union options) _ _ => anyNullable options
  | node (.discriminatedUnion _ options) _ _ => anyNullable options
  | node (.intersection left right) _ _ => isNullable left && isNullable right
  | _ => false

/-- Whether one of the schemas accepts `null`. -/
def anyNullable : List Schema → Bool
  | [] => false
  | s :: rest => isNullable s || anyNullable rest

end

end OpenApi.Schema
