/-
# OpenApi.Site.Basic -- schemas settled at their places

A *site* is a schema at one place of use with everything settled that does not depend on
what has been compiled before: the identifier and the document keys that are visible
there, whether null is accepted, the default value, and the *shape* under all wrappers.
Nested unions and intersections are already flat, and the input of a pipeline stands in
for the pipeline.

Compiling a site depends on nothing but the site, the dialect and the components that are
stored already.
-/
import OpenApi.Problem

namespace OpenApi

/-- What an object says about keys outside its properties. -/
inductive Additional (σ : Type) where
  | unspecified
  | forbidden
  | schema (site : σ)

/-- The keys of an object: its properties, those that must be present, and the others. -/
structure Members (σ : Type) where
  properties : List (String × σ)
  required : List String
  additional : Additional σ

mutual

/-- A schema settled at its place. -/
inductive Site where
  | mk (refId : Option String) (keys : List (String × Json)) (nullable : Bool)
      (default : Option Json) (shape : Shape)

/-- What a schema accepts, under all wrappers.

* `scalar` gives a type, number checks and further keys;
* `extension` is an object that names the object it extends; `base` and `baseRequired` are
  that object's own properties and required keys;
* `oneOf` comes with its discriminator, or with the problem that there is none;
* `inline` is a step of a pipeline, compiled in place;
* `invalid` has no form in a document. -/
inductive Shape where
  | null
  | anything
  | scalar (type : String) (checks : List NumberCheck) (keys : List (String × Json))
  | object (members : Members Site)
  | extension (members : Members Site) (refId : String) (parent : Site)
      (base : List (String × Site)) (baseRequired : List String)
  | array (element : Site) (least most : Option Nat)
  | tuple (items : List Site)
  | anyOf (options : List Site)
  | oneOf (options : List Site) (discriminator : Except Problem (Option Json))
  | allOf (parts : List Site)
  | dictionary (value : Site)
  | inline (site : Site)
  | invalid (problem : Problem)

end

namespace Shape

/-- The properties of a shape that is an object. -/
def properties : Shape → List (String × Site)
  | object members => members.properties
  | extension members _ _ _ _ => members.properties
  | _ => []

/-- The required keys of a shape that is an object. -/
def required : Shape → List String
  | object members => members.required
  | extension members _ _ _ _ => members.required
  | _ => []

end Shape

end OpenApi
