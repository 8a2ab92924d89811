/-
# OpenApi.Operation.Basic -- operations as they are described

A route is one operation: a method, a path, what the request carries and what the
responses are. Everything else that is said about the operation is kept as it is given.
-/
import OpenApi.Schema.Builder

namespace OpenApi

/-- The schema of a body: a schema to compile, or a finished document schema. -/
inductive BodySchema where
  | schema (schema : Schema)
  | raw (value : Json)

/-- The body in one media type, with further keys. -/
structure MediaType where
  schema : BodySchema
  extra : Entries Json := []

/-- The body of a request: media types, with further keys. -/
structure RequestBody where
  content : Entries MediaType
  extra : Entries Json := []

/-- The headers of a request: the properties of one schema, or one schema for each. -/
inductive RequestHeaders where
  | list (schemas : List Schema)
  | schema (schema : Schema)

/-- What a request carries, by section. -/
structure Request where
  body : Option RequestBody := none
  params : Option Schema := none
  query : Option Schema := none
  cookies : Option Schema := none
  headers : Option RequestHeaders := none

/-- The headers of a response: the properties of a schema, or finished header objects. -/
inductive ResponseHeaders where
  | schema (schema : Schema)
  | raw (headers : Entries Json)

/-- A response, with further keys. -/
structure Response where
  description : String
  headers : Option ResponseHeaders := none
  content : Option (Entries MediaType) := none
  extra : Entries Json := []

/-- One operation. `operation` holds every key of the operation object that is given as it
is, such as `summary`, `tags`, or finished `parameters`. -/
structure Route where
  method : Method
  path : String
  request : Option Request := none
  responses : Entries Response := []
  operation : Entries Json := []

/-! ## Building -/

/-- A media type whose schema is to be compiled. -/
def MediaType.ofSchema (s : Schema) : MediaType := { schema := .schema s }

/-- A media type whose schema is finished. -/
def MediaType.ofRaw (value : Json) : MediaType := { schema := .raw value }

/-- The media type of a body that is JSON. -/
def jsonMediaType : String := "application/json"

namespace RequestBody

/-- A body that is JSON. -/
def json (s : Schema) : RequestBody := { content := [(jsonMediaType, .ofSchema s)] }

/-- Adds a key. -/
def withKey (body : RequestBody) (key : String) (value : Json) : RequestBody :=
  { body with extra := body.extra.insert key value }

end RequestBody

namespace Response

/-- Adds a media type. -/
def withContent (response : Response) (mediaType : String) (content : MediaType) : Response :=
  { response with content := some (Entries.insert (response.content.getD []) mediaType content) }

/-- Adds a body that is JSON. -/
def withJson (response : Response) (s : Schema) : Response :=
  response.withContent jsonMediaType (.ofSchema s)

/-- Sets the headers. -/
def withHeaders (response : Response) (s : Schema) : Response :=
  { response with headers := some (.schema s) }

end Response

namespace Route

/-- Adds a key of the operation object. -/
def withKey (route : Route) (key : String) (value : Json) : Route :=
  { route with operation := route.operation.insert key value }

/-- Summarises the operation. -/
def summary (route : Route) (text : String) : Route := route.withKey "summary" (.string text)

/-- Adds a response for a status. -/
def response (route : Route) (status : String) (response : Response) : Route :=
  { route with responses := route.responses.insert status response }

/-- The name of an operation: its method and its path. -/
def name (route : Route) : String := route.method.text ++ " " ++ route.path

end Route

end OpenApi
