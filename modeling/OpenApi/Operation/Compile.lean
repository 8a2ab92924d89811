/-
# OpenApi.Operation.Compile -- compiling operations

The responses of an operation are compiled first, in each of them the headers before the
content; then the parameters by section: query, path, cookies, headers; then the body of
the request. In the operation object the parameters stand in the order path, query,
header, cookie, after those that were given finished.

A missing parameter key is reported with the section and the operation it was found in.
-/
import OpenApi.Operation.Basic
import OpenApi.Parameter

namespace OpenApi

/-! ## Bodies -/

/-- The object of one media type. -/
def MediaType.compile (dialect : Dialect) (media : MediaType) : Compile Fragment := do
  let schema ← match media.schema with
    | .schema s => do
      let compiled ← s.site.compile dialect .reference
      pure (Json.object compiled)
    | .raw value => pure value
  return Entries.extend [("schema", schema)] media.extra

/-- The objects of media types in order. -/
def MediaType.compileAll (dialect : Dialect) : List (String × MediaType) → Compile Fragment
  | [] => return []
  | (name, media) :: rest => do
    let compiled ← media.compile dialect
    let others ← MediaType.compileAll dialect rest
    return (name, .object compiled) :: others

/-- The object of a request body. -/
def RequestBody.compile (dialect : Dialect) (body : RequestBody) : Compile Json := do
  let content ← MediaType.compileAll dialect body.content
  return .object (Entries.insert body.extra "content" (.object content))

/-! ## Responses -/

/-- The header objects of a response. The key of a header is its name, so the object has
neither name nor location. -/
def ResponseHeaders.compileEach (dialect : Dialect) : List (String × Schema) → Compile Fragment
  | [] => return []
  | (key, s) :: rest => do
    let header ← Parameter.compileBare dialect s
    let bare := (Entries.swapRemove header "name").swapRemove "in"
    let headers ← ResponseHeaders.compileEach dialect rest
    return (key, .object bare) :: headers

/-- The headers of a response by key. A schema for them has to be an object. -/
def ResponseHeaders.compile (dialect : Dialect) : ResponseHeaders → Compile Fragment
  | .raw headers => return headers
  | .schema s =>
    match s.kind with
    | .object shape _ _ => ResponseHeaders.compileEach dialect shape
    | kind => Compile.fail (.unsupported (.responseHeaders kind.name))

/-- Adds the headers of a response to its object. -/
def Response.compileHeaders (dialect : Dialect) (response : Response) (described : Fragment) :
    Compile Fragment :=
  match response.headers with
  | some headers => do
    let compiled ← headers.compile dialect
    return described.insert "headers" (.object compiled)
  | none => return described

/-- Adds the content of a response to its object. -/
def Response.compileContent (dialect : Dialect) (response : Response) (headed : Fragment) :
    Compile Fragment :=
  match response.content with
  | some content => do
    let compiled ← MediaType.compileAll dialect content
    return headed.insert "content" (.object compiled)
  | none => return headed

/-- The object of a response. -/
def Response.compile (dialect : Dialect) (response : Response) : Compile Fragment := do
  let described := Entries.extend [("description", .string response.description)] response.extra
  let headed ← response.compileHeaders dialect described
  response.compileContent dialect headed

/-- The objects of responses by status. -/
def Response.compileAll (dialect : Dialect) : List (String × Response) → Compile Fragment
  | [] => return []
  | (status, response) :: rest => do
    let compiled ← response.compile dialect
    let others ← Response.compileAll dialect rest
    return (status, .object compiled) :: others

/-! ## Parameters -/

/-- The schemas of the headers of a request. -/
def RequestHeaders.schemas : RequestHeaders → List Schema
  | .list schemas => schemas
  | .schema s => [s]

/-- The schemas of a section of a request. -/
def Request.section (request : Request) : Location → List Schema
  | .path => request.params.toList
  | .query => request.query.toList
  | .header => (request.headers.map (·.schemas)).getD []
  | .cookie => request.cookies.toList

/-- The parameters of one section. -/
def Parameter.ofSchemas (dialect : Dialect) (registered : Store Fragment) (location : Location) :
    List Schema → Compile (List Fragment)
  | [] => return []
  | s :: rest => do
    let here ← Compile.mapProblem (Problem.locate fun place => { place with location := location })
      (Parameter.ofSection dialect registered location s)
    let others ← Parameter.ofSchemas dialect registered location rest
    return here ++ others

/-- The parameters of a request in the order in which they are listed. -/
def Request.compileParameters (dialect : Dialect) (registered : Store Fragment)
    (request : Request) : Compile (List Fragment) := do
  let compileAt (location : Location) :=
    Parameter.ofSchemas dialect registered location (request.section location)
  let query ← compileAt .query
  let path ← compileAt .path
  let cookie ← compileAt .cookie
  let header ← compileAt .header
  return path ++ query ++ header ++ cookie

/-! ## Operations -/

/-- Parameters written after those that an operation object has already. Without any, the
object stays as it is. -/
def Route.withParameters (operation : Fragment) (parameters : List Fragment) : Fragment :=
  if parameters.isEmpty then operation
  else
    let given := match Entries.get? operation "parameters" with
      | some (.array finished) => finished
      | _ => []
    Entries.insert operation "parameters" (.array (given ++ parameters.map .object))

/-- The parameters of a route. -/
def Route.compileParameters (dialect : Dialect) (registered : Store Fragment) (route : Route) :
    Compile (List Fragment) :=
  match route.request with
  | some request =>
    Compile.mapProblem (Problem.locate fun place => { place with route := route.name })
      (request.compileParameters dialect registered)
  | none => return []

/-- The request body of a route, if it has one. -/
def Route.compileBody (dialect : Dialect) (route : Route) : Compile (Option Json) :=
  match route.request.bind (·.body) with
  | some body => do
    let compiled ← body.compile dialect
    return some compiled
  | none => return none

/-- The operation object of a route. -/
def Route.compile (dialect : Dialect) (registered : Store Fragment) (route : Route) :
    Compile Fragment := do
  let responses ← Response.compileAll dialect route.responses
  let parameters ← route.compileParameters dialect registered
  let body ← route.compileBody dialect
  let operation := Route.withParameters route.operation parameters
  return (Entries.insertSome operation "requestBody" body).insert "responses" (.object responses)

end OpenApi
