/-
# OpenApi.Document -- generating documents

A generation compiles definitions one after another. It keeps the schemas and the
parameters that are named, the operations by path and method, and the finished
components. In the end the finished components are grouped, the compiled ones are written
over them, and the document's own fields are put in front.
-/
import OpenApi.Definition
import OpenApi.Operation.Compile

namespace OpenApi

/-! ## State of a generation -/

/-- Operations by path, and for each path by method. -/
abbrev PathItems := Entries Fragment

/-- What a generation has compiled so far. -/
structure Generation where
  schemas : Store Fragment := {}
  parameters : Store Fragment := {}
  paths : PathItems := []
  webhooks : PathItems := []
  components : List RawComponent := []

namespace PathItems

/-- Puts an operation under a path and a method; other methods of the path stay. -/
def put (items : PathItems) (path : String) (method : Method) (operation : Fragment) :
    PathItems :=
  let item := (Entries.get? items path).getD []
  Entries.insert items path (Entries.insert item method.text (.object operation))

/-- The path items as members of an object. -/
def toFragment (items : PathItems) : Fragment := Entries.mapValues Json.object items

end PathItems

namespace Generation

/-- Runs a compilation on the named schemas of a generation. -/
def run {α : Type} (generation : Generation) (act : Compile α) :
    Except Problem (α × Generation) :=
  (act generation.schemas).map fun (result, schemas) => (result, { generation with schemas })

/-- Compiles the operation of a route, with the registered parameters at hand. -/
def operation (dialect : Dialect) (generation : Generation) (route : Route) :
    Except Problem (Fragment × Generation) :=
  generation.run (route.compile dialect generation.parameters)

/-- Compiles one definition. -/
def step (dialect : Dialect) (generation : Generation) :
    Definition → Except Problem Generation
  | .plain s | .schema s =>
    (generation.run (s.site.compile dialect .fragment)).map (·.2)
  | .parameter s => do
    let (parameters, after) ←
      generation.run (Parameter.register dialect generation.parameters s)
    return { after with parameters }
  | .component component =>
    return { generation with components := generation.components ++ [component] }
  | .route route => do
    let (operation, after) ← generation.operation dialect route
    return { after with paths := after.paths.put route.path route.method operation }
  | .webhook route => do
    if !dialect.hasWebhooks then
      throw (.unsupported (.webhook route.path))
    let (operation, after) ← generation.operation dialect route
    return { after with webhooks := after.webhooks.put route.path route.method operation }

/-- Compiles definitions in the given order. -/
def steps (dialect : Dialect) (generation : Generation) :
    List Definition → Except Problem Generation
  | [] => .ok generation
  | definition :: rest =>
    match generation.step dialect definition with
    | .ok next => next.steps dialect rest
    | .error problem => .error problem

/-- Compiles definitions by rank, from nothing. -/
def ofDefinitions (dialect : Dialect) (definitions : List Definition) :
    Except Problem Generation :=
  steps dialect {} (Definition.byRank definitions)

end Generation

/-! ## Components -/

/-- Puts finished components into their groups. -/
def RawComponent.grouped (components : List RawComponent) : Entries Fragment :=
  components.foldl (fun groups component =>
    let group := (Entries.get? groups component.group).getD []
    Entries.insert groups component.group (Entries.insert group component.name component.value)) []

/-- Writes compiled components over those of a group. -/
def Generation.overGroup (groups : Entries Fragment) (name : String) (compiled : Store Fragment) :
    Entries Fragment :=
  let group := (Entries.get? groups name).getD []
  Entries.insert groups name (Entries.extend group (Entries.mapValues Json.object compiled.entries))

/-- The component groups of a generation. There are always schemas and parameters. -/
def Generation.componentGroups (generation : Generation) : Fragment :=
  let groups := RawComponent.grouped generation.components
  let withSchemas := Generation.overGroup groups "schemas" generation.schemas
  Entries.mapValues Json.object (Generation.overGroup withSchemas "parameters" generation.parameters)

/-! ## Documents -/

/-- The `info` of a document. -/
structure Info where
  title : String
  version : String
  description : Option String := none
  extra : Entries Json := []

/-- The fields of a document besides what is generated. -/
structure DocumentConfig where
  openapi : String
  info : Info
  servers : List Json := []
  security : List Json := []
  tags : List Json := []
  externalDocs : Option Json := none
  extra : Entries Json := []

/-- The `info` object. -/
def Info.toFragment (info : Info) : Fragment :=
  let named : Fragment := [("title", .string info.title), ("version", .string info.version)]
  (named.insertSome "description" (info.description.map .string)).extend info.extra

namespace DocumentConfig

/-- A list under a key, unless it is empty. -/
def listField (fields : Fragment) (key : String) (items : List Json) : Fragment :=
  if items.isEmpty then fields else fields.insert key (.array items)

/-- The fields in the order of the document. Empty lists are left out. -/
def toFragment (config : DocumentConfig) : Fragment :=
  let headed : Fragment :=
    [("openapi", .string config.openapi), ("info", .object config.info.toFragment)]
  let served := listField headed "servers" config.servers
  let secured := listField served "security" config.security
  let tagged := listField secured "tags" config.tags
  (tagged.insertSome "externalDocs" config.externalDocs).extend config.extra

/-- Adds a server by its address. -/
def withServer (config : DocumentConfig) (url : String) : DocumentConfig :=
  { config with servers := config.servers ++ [.object [("url", .string url)]] }

end DocumentConfig

namespace Generation

/-- Writes what was generated over the fields of a document: components, paths and, if there
are any, webhooks. -/
def writeOver (generation : Generation) (fields : Fragment) : Fragment :=
  let withComponents := fields.insert "components" (.object generation.componentGroups)
  let withPaths := withComponents.insert "paths" (.object generation.paths.toFragment)
  if generation.webhooks.isEmpty then withPaths
  else withPaths.insert "webhooks" (.object generation.webhooks.toFragment)

end Generation

/-- The components, paths and webhooks of definitions. -/
def generateData (version : Version) (definitions : List Definition) : Except Problem Json :=
  (Generation.ofDefinitions version.dialect definitions).map fun generation =>
    .object (generation.writeOver [])

/-- Only the components of definitions. -/
def generateComponents (version : Version) (definitions : List Definition) :
    Except Problem Json :=
  (Generation.ofDefinitions version.dialect definitions).map fun generation =>
    .object [("components", .object generation.componentGroups)]

/-- The version with the given text. -/
def Version.parse (text : String) : Except Problem Version :=
  match Version.ofText? text with
  | some version => .ok version
  | none => .error (.unsupportedVersion text)

/-- A whole document, for the version that its fields name. -/
def generateDocument (config : DocumentConfig) (definitions : List Definition) :
    Except Problem Json := do
  let version ← Version.parse config.openapi
  let generation ← Generation.ofDefinitions version.dialect definitions
  return .object (generation.writeOver config.toFragment)

end OpenApi
