/-
# OpenApi.Decode.Definition -- reading definitions files

A definition is read by its `type`. If it cannot be read that way, for whatever reason, it
is read as a plain schema. A definitions file has a list of definitions and may have the
fields of a document.
-/
import OpenApi.Decode.Operation
import OpenApi.Document
import OpenApi.Json.Reader

namespace OpenApi

open Json (Written)

/-- The contents of a definitions file. -/
structure DefinitionsFile where
  document : Option DocumentConfig := none
  definitions : List Definition

namespace Decode

/-! ## Definitions -/

/-- The types of definitions in order. -/
def definitionTypes : List String := ["schema", "parameter", "component", "route", "webhook"]

/-- A finished component. -/
def rawComponent? (w : Written) : Option RawComponent := do
  let fields ← record? ["componentType", "name", "component"] w
  let group ← required? fields "componentType" string?
  let name ← required? fields "name" string?
  let value ← required? fields "component" Written.value?
  return { group, name, value }

/-- A definition by its type. -/
def typedDefinition? (w : Written) : Option Definition := do
  let (type, w) ← choice? "type" (tag? definitionTypes) w
  let only {α : Type} (key : String) (decode : Written → Option α) : Option α := do
    required? (← record? [key] w) key decode
  match type with
  | "schema" => return .schema (← only "schema" (schema? .nullOrEmpty))
  | "parameter" => return .parameter (← only "schema" (schema? .nullOrEmpty))
  | "component" => return .component (← rawComponent? w)
  | "route" => return .route (← only "route" route?)
  | "webhook" => return .webhook (← only "webhook" route?)
  | _ => none

/-- A definition. Every part of it must be usable. -/
def definition? (w : Written) : Option Definition :=
  if w.isUsable then
    match typedDefinition? w with
    | some definition => some definition
    -- A mistake in the payload and an unknown type are the same here.
    | none => (schema? .null w).map .plain
  else none

/-! ## Documents -/

/-- The `info` of a document. -/
def info? (w : Written) : Option Info := do
  let fields ← object? w
  let title ← required? fields "title" string?
  let version ← required? fields "version" string?
  let description ← optional? fields "description" string?
  let extra ← rest? fields ["title", "version", "description"]
  return { title, version, description, extra }

/-- The fields of a document. -/
def documentConfig? (w : Written) : Option DocumentConfig := do
  let fields ← object? w
  let openapi ← required? fields "openapi" string?
  let info ← required? fields "info" info?
  let servers ← defaulted? fields "servers" [] (list? Written.value?)
  let security ← defaulted? fields "security" [] (list? Written.value?)
  let tags ← defaulted? fields "tags" [] (list? Written.value?)
  let externalDocs ← optional? fields "externalDocs" Written.value?
  let extra ←
    rest? fields ["openapi", "info", "servers", "security", "tags", "externalDocs"]
  return { openapi, info, servers, security, tags, externalDocs, extra }

/-- The contents of a definitions file. -/
def definitionsFile? (w : Written) : Option DefinitionsFile := do
  let fields ← record? ["document", "definitions"] w
  let document ← optional? fields "document" documentConfig?
  let definitions ← required? fields "definitions" (list? definition?)
  return { document, definitions }

end Decode

/-- Reads the text of a definitions file. -/
def DefinitionsFile.ofText? (text : String) : Option DefinitionsFile :=
  (Written.read? text).bind Decode.definitionsFile?

end OpenApi
