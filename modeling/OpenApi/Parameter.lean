/-
# OpenApi.Parameter -- parameter objects

A parameter object has a schema, says whether it is required, and carries what is said
about the parameter; it must have a name and a location. Parameters can be *registered*
under an identifier, once. A request schema with the identifier of a registered parameter
becomes a reference to it, provided that its name and location agree with what was
registered.
-/
import OpenApi.Schema.Builder
import OpenApi.Site.Compile
import OpenApi.Site.OfSchema

namespace OpenApi.Parameter

/-! ## One parameter -/

/-- The schema, whether it is required, and what is said about the parameter. Name and
location may be missing. -/
def compileBare (dialect : Dialect) (s : Schema) : Compile Fragment := do
  let compiled ← s.site.compile dialect .reference
  let required := !s.isOptional && !s.isNullable
  let keys := (s.parameterMetadata.parameter.map (·.keys)).getD []
  return Entries.extend [("schema", .object compiled), ("required", .bool required)] keys

/-- A whole parameter object. -/
def compile (dialect : Dialect) (s : Schema) : Compile Fragment :=
  let info := s.metadata.parameter
  match info.bind (·.name), info.bind (·.location) with
  | none, _ => Compile.fail (.missingParameter { missing := .name })
  | some name, none => Compile.fail (.missingParameter { missing := .location, parameter := name })
  | some name, some location => do
    let bare ← compileBare dialect s
    return (Entries.insert bare "in" (.string location.text)).insert "name" (.string name)

/-! ## Agreement -/

/-- A conflict over a key, with each distinct value once. -/
def conflict (cause : Conflict) (key : ParameterKey) (observed : List (Option String)) : Problem :=
  .conflict cause key (observed.filterMap id).eraseDups

/-- The text under a key of a parameter object. -/
def textOf (parameter : Fragment) (key : ParameterKey) : Option String :=
  (Entries.get? parameter key.text).bind Json.string?

/-- Whether a text is given and is not the registered one. -/
def differs (given registered : Option String) : Bool :=
  match given with
  | some text => some text != registered
  | none => false

/-- Registers a parameter under the identifier of its schema. A second registration must
have the same location and the same name. -/
def register (dialect : Dialect) (registered : Store Fragment) (s : Schema) :
    Compile (Store Fragment) := do
  let new ← compile dialect s
  match s.refId? with
  | none => return registered
  | some refId =>
    match registered.get? refId with
    | none => return (registered.define refId new).2
    | some old =>
      let disagree := [ParameterKey.location, .name].find? fun key =>
        textOf old key != textOf new key
      match disagree with
      | some key =>
        Compile.fail (conflict (.registrations refId) key [textOf old key, textOf new key])
      | none => return registered

/-- The reference to the registered parameter that a schema stands for, if it stands for
one. The place of use gives a location and may give a name; they and what the schema
declares must agree with the registration. -/
def reference? (registered : Store Fragment) (s : Schema) (location : Location)
    (name : Option String) : Except Problem (Option Fragment) :=
  match s.refId?.bind fun refId => (registered.get? refId).map fun old => (refId, old) with
  | none => .ok none
  | some (refId, old) =>
    let info := s.metadata.parameter
    let registeredIn := textOf old .location
    let registeredName := textOf old .name
    let declaredIn := (info.bind (·.location)).map Location.text
    let declaredName := info.bind (·.name)
    if differs declaredIn registeredIn || differs (some location.text) registeredIn then
      .error (conflict (.location (registeredName.getD refId)) .location
        [registeredIn, some location.text, declaredIn])
    else if differs declaredName registeredName || differs name registeredName then
      .error (conflict .names .name [registeredName, name, declaredName])
    else .ok (some (Reference.toParameter refId))

/-! ## The parameters of a request -/

/-- The conflict between the location of a request section and the one that a schema
declares, if there is one; `fallback` names a parameter that has no declared name. -/
def locationConflict? (info : Option ParameterInfo) (location : Location) (fallback : String) :
    Option Problem :=
  match info.bind (·.location) with
  | some declared =>
    if declared = location then none
    else
      let name := (info.bind (·.name)).getD fallback
      some (conflict (.location name) .location [some location.text, some declared.text])
  | none => none

/-- The parameter that one property of a request section stands for. Its key is its name. -/
def ofProperty (dialect : Dialect) (registered : Store Fragment) (location : Location)
    (key : String) (s : Schema) : Compile Fragment :=
  match reference? registered s location key with
  | .error problem => Compile.fail problem
  | .ok (some reference) => return reference
  | .ok none =>
    let info := s.metadata.parameter
    match (info.bind (·.name)).filter fun name => name != key with
    | some name => Compile.fail (conflict .names .name [some key, some name])
    | none =>
      match locationConflict? info location key with
      | some problem => Compile.fail problem
      | none => compile dialect (s.parameter { name := key, location := location })

/-- The parameters that the properties of a request section stand for. -/
def ofProperties (dialect : Dialect) (registered : Store Fragment) (location : Location) :
    List (String × Schema) → Compile (List Fragment)
  | [] => return []
  | (key, s) :: rest => do
    let parameter ← ofProperty dialect registered location key s
    let parameters ← ofProperties dialect registered location rest
    return parameter :: parameters

/-- The parameters that a schema in a request section stands for: a registered one, one for
each property of an object, or one that the schema itself describes. -/
def ofSection (dialect : Dialect) (registered : Store Fragment) (location : Location)
    (s : Schema) : Compile (List Fragment) :=
  match reference? registered s location none with
  | .error problem => Compile.fail problem
  | .ok (some reference) => return [reference]
  | .ok none =>
    match s.kind with
    | .object shape _ _ => ofProperties dialect registered location shape
    | _ =>
      match locationConflict? s.metadata.parameter location "" with
      | some problem => Compile.fail problem
      | none => do
        let parameter ← compile dialect (s.parameter { location := location })
        return [parameter]

end OpenApi.Parameter
