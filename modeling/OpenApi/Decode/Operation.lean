/-
# OpenApi.Decode.Operation -- reading operations

Where a schema may stand beside something finished, the schema is tried first: a body
that is no schema is a finished document schema, and headers that are no schema are
finished header objects.
-/
import OpenApi.Decode.Schema
import OpenApi.Operation.Basic

namespace OpenApi.Decode

open Json (Written)

/-- The schema of a body. -/
def bodySchema? (w : Written) : Option BodySchema :=
  match schema? .null w with
  | some s => some (.schema s)
  | none => w.value?.map .raw

/-- A media type. -/
def mediaType? (w : Written) : Option MediaType := do
  let fields ← object? w
  let schema ← required? fields "schema" bodySchema?
  let extra ← rest? fields ["schema"]
  return { schema, extra }

/-- The body of a request. -/
def requestBody? (w : Written) : Option RequestBody := do
  let fields ← object? w
  let content ← required? fields "content" (map? mediaType?)
  let extra ← rest? fields ["content"]
  return { content, extra }

/-- The headers of a request. -/
def requestHeaders? (w : Written) : Option RequestHeaders :=
  match list? (schema? .null) w with
  | some schemas => some (.list schemas)
  | none => (schema? .null w).map .schema

/-- What a request carries. -/
def request? (w : Written) : Option Request := do
  let fields ← record? ["body", "params", "query", "cookies", "headers"] w
  let body ← optional? fields "body" requestBody?
  let params ← optional? fields "params" (schema? .nullOrEmpty)
  let query ← optional? fields "query" (schema? .nullOrEmpty)
  let cookies ← optional? fields "cookies" (schema? .nullOrEmpty)
  let headers ← optional? fields "headers" requestHeaders?
  return { body, params, query, cookies, headers }

/-- The headers of a response. -/
def responseHeaders? (w : Written) : Option ResponseHeaders :=
  match schema? .null w with
  | some s => some (.schema s)
  | none => (map? Written.value? w).map .raw

/-- A response. -/
def response? (w : Written) : Option Response := do
  let fields ← object? w
  let description ← required? fields "description" string?
  let headers ← optional? fields "headers" responseHeaders?
  let content ← optional? fields "content" (map? mediaType?)
  let extra ← rest? fields ["description", "headers", "content"]
  return { description, headers, content, extra }

/-- A route. -/
def route? (w : Written) : Option Route := do
  let fields ← object? w
  let method ← required? fields "method" (name? .nullOrEmpty Method.ofText?)
  let path ← required? fields "path" string?
  let request ← optional? fields "request" request?
  let responses ← required? fields "responses" (map? response?)
  let operation ← rest? fields ["method", "path", "request", "responses"]
  return { method, path, request, responses, operation }

end OpenApi.Decode
