/-
# OpenApi.Site.Compile -- compiling sites into document schemas

A site with an identifier is compiled once and stored under it. Where the identifier is
stored already, the answer is a reference to it, or `allOf` of the reference and a *delta*:
what this place says and the stored fragment does not.

The schemas below a site are compiled first, always in the same order, so what a
compilation stores is a matter of the site alone.
-/
import OpenApi.Site.Basic
import OpenApi.Store

namespace OpenApi

/-- A computation that may store components and may end with a problem. -/
abbrev Compile (α : Type) := StateT (Store Fragment) (Except Problem) α

namespace Compile

/-- Ends with a problem. -/
def fail {α : Type} (problem : Problem) : Compile α := fun _ => .error problem

/-- A computation whose problem, if it ends with one, is completed. -/
def mapProblem {α : Type} (f : Problem → Problem) (act : Compile α) : Compile α :=
  fun store => (act store).mapError f

/-- What an identifier stands for at this point. -/
def stored? (refId : Option String) : Compile (Option (String × Fragment)) := fun store =>
  .ok (refId.bind fun name => (store.get? name).map fun fragment => (name, fragment), store)

end Compile

/-- How a site that has just been stored is answered. -/
inductive Reply where
  | fragment
  | reference
  deriving DecidableEq, Repr

/-! ## Fragments -/

namespace Fragment

/-- A fragment with a default value, unless that is null. -/
def withDefault (fragment : Fragment) : Option Json → Fragment
  | some value => if value.isNull then fragment else Entries.insert fragment "default" value
  | none => fragment

/-- The keys that a stored fragment does not have with the same value. Null values do not
count. -/
def without (fragment stored : Fragment) : Fragment :=
  fragment.filter fun e =>
    !e.2.isNull && !(match Entries.get? stored e.1 with
      | some value => value.same e.2
      | none => false)

/-- The keys of a fragment that are not null. -/
def nonNull (fragment : Fragment) : Fragment := fragment.filter fun e => !e.2.isNull

/-- A fragment with document keys written over it. -/
def overlay (fragment keys : Fragment) : Fragment := nonNull (Entries.extend fragment keys)

/-- `allOf` of a reference and what is said beyond it. -/
def referenceAnd (refId : String) (delta : Fragment) : Fragment :=
  [("allOf", .array [.object (Reference.toSchema refId), .object delta])]

/-- A reference, with a delta if there is something beyond it. -/
def referenceWith (refId : String) (delta : Fragment) : Fragment :=
  if delta.isEmpty then Reference.toSchema refId else referenceAnd refId delta

end Fragment

namespace Shape

/-! ## What each shape writes, given what the schemas below it have become -/

/-- A type with number checks and further keys. -/
def scalarFragment (dialect : Dialect) (nullable : Bool) (default : Option Json) (type : String)
    (checks : List NumberCheck) (keys : Fragment) : Fragment :=
  let typed := dialect.typeKeys (some (.string type)) nullable
  Fragment.withDefault ((Entries.extend typed (dialect.numberKeys checks)).extend keys) default

/-- The keys of an object: type, default, properties, required keys and other keys. -/
def objectFragment (dialect : Dialect) (nullable : Bool) (default : Option Json)
    (properties : Fragment) (required : List String) (additional : Option Json) : Fragment :=
  let typed := Fragment.withDefault (dialect.typeKeys (some (.string "object")) nullable) default
  let shaped := Entries.insert typed "properties" (.object properties)
  let demanding :=
    if required.isEmpty then shaped else Entries.insert shaped "required" (.strings required)
  Entries.insertSome demanding "additionalProperties" additional

/-- The properties that are not the same in the extended object. -/
def ownProperties (properties base : Fragment) : Fragment :=
  properties.filter fun e =>
    !(match Entries.get? base e.1 with
      | some value => value.same e.2
      | none => false)

/-- An array of items, with bounds on their number. -/
def arrayFragment (dialect : Dialect) (nullable : Bool) (items : Json) (least most : Option Nat) :
    Fragment :=
  let typed := Entries.insert (dialect.typeKeys (some (.string "array")) nullable) "items" items
  (Entries.insertSome typed "minItems" (least.map .nat)).insertSome "maxItems" (most.map .nat)

/-- The schema of the items of a tuple: the one schema they have in common, or any of
them. -/
def tupleItems (items : List Json) : Json :=
  match Json.distinct items with
  | [item] => item
  | several => .object [("anyOf", .array several)]

/-- Alternatives, with one for null if it is accepted and not among them. -/
def anyOfFragment (dialect : Dialect) (nullable : Bool) (options : List Json) : Fragment :=
  let missing := nullable && !(Json.object dialect.nullFragment).isAmong options
  [("anyOf", .array (dialect.withNull options missing))]

/-- Exclusive alternatives. With null among them they have no discriminator. -/
def oneOfFragment (dialect : Dialect) (nullable : Bool) (options : List Json)
    (discriminator : Option Json) : Fragment :=
  if nullable then [("oneOf", .array (dialect.withNull options true))]
  else Entries.insertSome [("oneOf", .array options)] "discriminator" discriminator

/-- Parts that hold together, or null. -/
def allOfFragment (dialect : Dialect) (nullable : Bool) (parts : List Json) : Fragment :=
  let all : Fragment := [("allOf", .array parts)]
  if nullable then [("anyOf", .array (dialect.withNull [.object all] true))] else all

/-- An object whose keys all have one schema. -/
def dictionaryFragment (dialect : Dialect) (nullable : Bool) (value : Json) : Fragment :=
  Entries.insert (dialect.typeKeys (some (.string "object")) nullable) "additionalProperties" value

end Shape

namespace Site

/-- Stores what a site has become under its identifier, if it has one that is not taken, and
gives the answer. -/
def define (reply : Reply) (refId : Option String) (result : Fragment) : Compile Fragment :=
  fun store =>
    match refId with
    | none => .ok (result, store)
    | some name =>
      match store.define name result, reply with
      | (true, store), .reference => .ok (Reference.toSchema name, store)
      | (_, store), _ => .ok (result, store)

end Site

/-! ## Compilation -/

mutual

/-- Compiles a site and stores it if it has an identifier. -/
def Site.compile (dialect : Dialect) (reply : Reply) : Site → Compile Fragment
  | .mk refId keys nullable default shape => do
    let override := Entries.get? keys "type"
    match ← Compile.stored? refId with
    | some (name, stored) =>
      let said := Fragment.without keys stored
      -- A type of its own, other than the stored one, leaves nothing to compile here.
      if Entries.contains said "type" then
        return Fragment.referenceAnd name said
      let body ← match override with
        | some type => pure (dialect.typeKeys (some type) nullable)
        | none => Shape.compile dialect nullable default shape
      let delta := Entries.extend (Fragment.without body stored) said
      return Fragment.referenceWith name (Fragment.nonNull delta)
    | none =>
      let body ← match override with
        | some type => pure [("type", type)]
        | none => Shape.compile dialect nullable default shape
      Site.define reply refId (Fragment.overlay body keys)

/-- Compiles a shape at a place where null is accepted or not and a default is given or not.
Properties come before other keys, and both before an extended object. -/
def Shape.compile (dialect : Dialect) (nullable : Bool) (default : Option Json) :
    Shape → Compile Fragment
  | .null => return dialect.nullFragment
  | .anything => return dialect.typeKeys none nullable
  | .scalar type checks keys =>
    return Shape.scalarFragment dialect nullable default type checks keys
  | .object ⟨properties, required, additional⟩ => do
    let properties ← Shape.compileProperties dialect properties
    let additional ← Shape.compileAdditional dialect additional
    return Shape.objectFragment dialect nullable default properties required additional
  | .extension ⟨properties, required, additional⟩ refId parent base baseRequired => do
    let properties ← Shape.compileProperties dialect properties
    let additional ← Shape.compileAdditional dialect additional
    -- The parent is compiled for its component only; what it has become is not needed.
    let _ ← Site.compile dialect .fragment parent
    let base ← Shape.compileProperties dialect base
    let own := Shape.objectFragment dialect nullable default
      (Shape.ownProperties properties base)
      (required.filter fun key => !baseRequired.contains key) additional
    return Fragment.referenceAnd refId own
  | .array element least most => do
    let items ← Site.compile dialect .reference element
    return Fragment.withDefault
      (Shape.arrayFragment dialect nullable (.object items) least most) default
  | .tuple items => do
    let compiled ← Shape.compileAll dialect items
    return Shape.arrayFragment dialect nullable (Shape.tupleItems compiled)
      (some items.length) (some items.length)
  | .anyOf options => do
    let compiled ← Shape.compileAll dialect options
    return Fragment.withDefault (Shape.anyOfFragment dialect nullable compiled) default
  | .oneOf options discriminator => do
    let compiled ← Shape.compileAll dialect options
    if nullable then
      return Fragment.withDefault (Shape.oneOfFragment dialect true compiled none) default
    match discriminator with
    | .ok telling =>
      return Fragment.withDefault (Shape.oneOfFragment dialect false compiled telling) default
    | .error problem => Compile.fail problem
  | .allOf parts => do
    let compiled ← Shape.compileAll dialect parts
    return Fragment.withDefault (Shape.allOfFragment dialect nullable compiled) default
  | .dictionary value => do
    let compiled ← Site.compile dialect .reference value
    return Fragment.withDefault
      (Shape.dictionaryFragment dialect nullable (.object compiled)) default
  | .inline site => Site.compile dialect .fragment site
  | .invalid problem => Compile.fail problem

/-- Compiles sites in order, by reference. -/
def Shape.compileAll (dialect : Dialect) : List Site → Compile (List Json)
  | [] => return []
  | site :: rest => do
    let fragment ← Site.compile dialect .reference site
    let fragments ← Shape.compileAll dialect rest
    return .object fragment :: fragments

/-- Compiles properties in order, by reference. -/
def Shape.compileProperties (dialect : Dialect) : List (String × Site) → Compile Fragment
  | [] => return []
  | (key, site) :: rest => do
    let fragment ← Site.compile dialect .reference site
    let fragments ← Shape.compileProperties dialect rest
    return (key, .object fragment) :: fragments

/-- Compiles what an object says about other keys. -/
def Shape.compileAdditional (dialect : Dialect) : Additional Site → Compile (Option Json)
  | .unspecified => return none
  | .forbidden => return some (.bool false)
  | .schema site => do
    let fragment ← Site.compile dialect .reference site
    return some (.object fragment)

end

end OpenApi
