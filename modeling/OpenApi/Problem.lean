/-
# OpenApi.Problem -- why a document cannot be generated

The first problem ends a generation; there are no partial documents. Each problem is a
cause with the values that its text needs, and `Problem.message` is the one place where
the texts are written.
-/
import OpenApi.Http
import OpenApi.Version

namespace OpenApi

/-- A key that every parameter object has. -/
inductive ParameterKey where
  | name
  | location
  deriving DecidableEq, Repr

/-- The spelling of a key. -/
def ParameterKey.text : ParameterKey → String
  | name => "name"
  | location => "in"

/-- Why two statements about a parameter do not agree. -/
inductive Conflict where
  | registrations (refId : String)
  | location (parameter : String)
  | names
  | other (text : String)
  deriving DecidableEq, Repr

/-- Why a schema or a route has no form in a document. -/
inductive Unsupported where
  | literalType
  | mixedEnum
  | discriminatorMissing (discriminator : String)
  | discriminatorAmbiguous (discriminator : String) (values : List String)
  | responseHeaders (kind : String)
  | webhook (path : String)
  | other (text : String)
  deriving DecidableEq, Repr

/-- A parameter without a name or a location, with what is known about the place. `route`
is the method and the path of the operation. -/
structure MissingParameter where
  missing : ParameterKey
  parameter : Option String := none
  location : Option Location := none
  route : Option String := none
  deriving DecidableEq, Repr

/-- Why a document cannot be generated. -/
inductive Problem where
  | unknownKind (kind : String) (schema : Option String)
  | missingParameter (place : MissingParameter)
  | conflict (cause : Conflict) (key : ParameterKey) (values : List String)
  | unsupported (cause : Unsupported)
  | unsupportedVersion (text : String)
  deriving DecidableEq, Repr

/-- Texts with a comma and a blank between them. -/
def Problem.commaList (texts : List String) : String := String.intercalate ", " texts

/-- The text of a conflict. -/
def Conflict.text : Conflict → String
  | registrations refId => "conflicting registrations for parameter " ++ refId
  | location parameter => "conflicting location for parameter " ++ parameter
  | names => "conflicting names for parameter"
  | other text => text

/-- The text of an unsupported configuration. -/
def Unsupported.text : Unsupported → String
  | literalType => "literal values must be strings, numbers, booleans or null"
  | mixedEnum =>
    "enum has mixed string and number values, please specify the OpenAPI type manually"
  | discriminatorMissing discriminator =>
    "discriminator " ++ discriminator
      ++ " could not be found in one of the values of a discriminated union"
  | discriminatorAmbiguous discriminator values =>
    "evaluating " ++ discriminator ++ ": only one child discriminator value is supported, got "
      ++ Problem.commaList values
  | responseHeaders kind => "response headers must be an object schema, got " ++ kind
  | webhook path => "webhook '" ++ path ++ "' requires OpenAPI 3.1 or later"
  | other text => text

/-- The text of a missing parameter key: each known part of the place adds a phrase. -/
def MissingParameter.text (place : MissingParameter) : String :=
  let phrase (before : String) (after : String) : Option String → String
    | some value => before ++ value ++ after
    | none => ""
  "missing parameter data: \x60" ++ place.missing.text ++ "\x60"
    ++ phrase " for parameter '" "'" place.parameter
    ++ phrase " in " " parameters" (place.location.map Location.text)
    ++ phrase " of route " "" place.route
    ++ "; set it through the schema's \x60param\x60 metadata"

namespace Problem

/-- The text of a problem. -/
def message : Problem → String
  | unknownKind kind schema =>
    "unknown schema variant '" ++ kind ++ "'"
      ++ (match schema with
        | some name => " in schema '" ++ name ++ "'"
        | none => "")
  | missingParameter place => place.text
  | conflict cause key values =>
    cause.text ++ " (key: " ++ key.text ++ ", values: " ++ commaList values ++ ")"
  | unsupported cause => "unsupported configuration: " ++ cause.text
  | unsupportedVersion text =>
    "unsupported OpenAPI version \"" ++ text ++ "\": expected one of " ++ commaList Version.texts

/-- The exit status of a program that stops with a problem. -/
def exitStatus (_ : Problem) : Nat := 2

/-- Completes what is known about the place of a missing parameter key; every other problem
stays as it is. -/
def locate (complete : MissingParameter → MissingParameter) : Problem → Problem
  | missingParameter place => missingParameter (complete place)
  | other => other

end Problem

end OpenApi
