/-
# OpenApi.CommandLine -- the command line, without its effects

A run has three pure parts with an effect between them: the arguments are read as a
command; the contents of the definitions file become the text of a document; and the
result of writing that text becomes the end of the run. The effects, reading one file and
writing one file or the standard output, are left to whoever runs the command.
-/
import OpenApi.Decode.Definition
import OpenApi.Json.Printer

namespace OpenApi.CommandLine

/-! ## Commands -/

/-- What `generate` is asked to do. -/
structure Options where
  definitions : String
  openapi : Option String := none
  componentsOnly : Bool := false
  output : Option String := none
  pretty : Bool := false
  deriving DecidableEq, Repr

/-- What the program is asked to do. -/
inductive Command where
  | generate (options : Options)
  | versions
  | programVersion
  | help
  deriving DecidableEq, Repr

/-- Options as they are found; the definitions file may be still to come. -/
structure Draft where
  definitions : Option String := none
  openapi : Option String := none
  componentsOnly : Bool := false
  output : Option String := none
  pretty : Bool := false

namespace Draft

/-- Takes the next argument that is no option. There is one, and it is not empty. -/
def withArgument (draft : Draft) (path : String) : Option Draft :=
  if draft.definitions.isSome || path.isEmpty then none
  else some { draft with definitions := path }

/-- Sets the target version, once. -/
def withOpenapi (draft : Draft) (version : String) : Option Draft :=
  if draft.openapi.isSome then none else some { draft with openapi := version }

/-- Sets the output file, once and not empty. -/
def withOutput (draft : Draft) (path : String) : Option Draft :=
  if draft.output.isSome || path.isEmpty then none else some { draft with output := path }

/-- Sets the flag with the given spelling, once. -/
def withFlag (draft : Draft) : String → Option Draft
  | "--components-only" =>
    if draft.componentsOnly then none else some { draft with componentsOnly := true }
  | "--pretty" => if draft.pretty then none else some { draft with pretty := true }
  | _ => none

/-- The finished options, if the definitions file is given. -/
def finish (draft : Draft) : Option Command :=
  draft.definitions.map fun definitions =>
    .generate {
      definitions
      openapi := draft.openapi
      componentsOnly := draft.componentsOnly
      output := draft.output
      pretty := draft.pretty }

end Draft

/-- Whether an argument is read as an option: it starts with a dash and is not only one. -/
def isOption (argument : String) : Bool := argument.startsWith "-" && argument != "-"

/-- Whether an argument asks for help: a short cluster that starts with `h`, or the long
option. -/
def asksHelp (argument : String) : Bool := argument == "--help" || argument.startsWith "-h"

/-- The value of an argument of the form `option=value`. -/
def attached? (option argument : String) : Option String :=
  if argument.startsWith (option ++ "=") then
    some (String.ofList (argument.toList.drop (option.length + 1)))
  else none

/-- An option that carries its value, or a flag. -/
def Draft.withOption (draft : Draft) (argument : String) : Option Draft :=
  match attached? "--openapi" argument, attached? "--output" argument with
  | some version, _ => draft.withOpenapi version
  | none, some path => draft.withOutput path
  | none, none => draft.withFlag argument

/-- The arguments after `--`, none of which is an option. -/
def plainArguments (draft : Draft) : List String → Option Command
  | [] => draft.finish
  | argument :: rest =>
    match draft.withArgument argument with
    | some draft => plainArguments draft rest
    | none => none

/-- The arguments of `generate`. A value that stands alone may not look like an option. -/
def generateArguments (draft : Draft) : List String → Option Command
  | [] => draft.finish
  | "--" :: rest => plainArguments draft rest
  | "--openapi" :: value :: rest =>
    if isOption value then none
    else match draft.withOpenapi value with
      | some draft => generateArguments draft rest
      | none => none
  | "--output" :: value :: rest =>
    if isOption value then none
    else match draft.withOutput value with
      | some draft => generateArguments draft rest
      | none => none
  | argument :: rest =>
    if asksHelp argument then some .help
    else
      let taken := if isOption argument then draft.withOption argument
        else draft.withArgument argument
      match taken with
      | some draft => generateArguments draft rest
      | none => none

/-- The arguments of `versions`: there are none. -/
def versionsArguments : List String → Option Command
  | [] => some .versions
  | ["--"] => some .versions
  | argument :: _ => if asksHelp argument then some .help else none

/-- The arguments of `help`: nothing, or the name of one command. -/
def helpArguments : List String → Option Command
  | [] => some .help
  | [topic] => if ["generate", "versions", "help"].contains topic then some .help else none
  | _ => none

/-- The command that arguments stand for, or nothing where they are misused. -/
def Command.ofArguments? : List String → Option Command
  | "generate" :: rest => generateArguments {} rest
  | "versions" :: rest => versionsArguments rest
  | "help" :: rest => helpArguments rest
  | "--version" :: _ => some .programVersion
  | argument :: _ =>
    if argument.startsWith "-V" then some .programVersion
    else if asksHelp argument then some .help
    else none
  | [] => none

/-! ## Results -/

/-- What was found where the definitions file should be. -/
inductive Source where
  | missing
  | unreadable (reason : String)
  | text (text : String)

/-- Why `generate` fails. -/
inductive Failure where
  | notFound (path : String)
  | unreadable (path reason : String)
  | invalidDefinitions
  | problem (problem : Problem)
  | unwritable (path reason : String)

/-- The line that reports a failure. -/
def Failure.report : Failure → String
  | notFound path => "Error: file not found: " ++ path
  | unreadable path reason => "Error: cannot read " ++ path ++ ": " ++ reason
  | invalidDefinitions => "Error: invalid definitions"
  | problem p => "Error: " ++ p.message
  | unwritable path reason => "Error writing to " ++ path ++ ": " ++ reason

/-- The exit status of a failure: files are one matter, their contents another. -/
def Failure.exitStatus : Failure → Nat
  | notFound _ => 3
  | unreadable _ _ => 3
  | invalidDefinitions => 2
  | problem p => p.exitStatus
  | unwritable _ _ => 3

/-- The exit status where the arguments are misused. -/
def usageStatus : Nat := 2

/-- The name of the program and its version. -/
def programVersion : String := "schema-openapi 0.4.0"

/-- How the program is used. -/
def usage : String :=
  "Generate OpenAPI documents from schema definitions\n\n"
    ++ "Usage: schema-openapi generate [OPTIONS] <DEFINITIONS>\n"
    ++ "       schema-openapi versions\n\n"
    ++ "Options:\n"
    ++ "      --openapi <OPENAPI>  Target OpenAPI version\n"
    ++ "      --components-only    Emit only the components\n"
    ++ "      --output <OUTPUT>    Output file (stdout if not specified)\n"
    ++ "      --pretty             Pretty-print JSON output"

/-- The definitions file in what was found at a path. -/
def definitionsIn (path : String) : Source → Except Failure DefinitionsFile
  | .missing => .error (.notFound path)
  | .unreadable reason => .error (.unreadable path reason)
  | .text text =>
    match DefinitionsFile.ofText? text with
    | some file => .ok file
    | none => .error .invalidDefinitions

/-- The version to generate for: the one asked for, else the document's, else the latest. -/
def targetVersion (options : Options) (file : DefinitionsFile) : Except Problem Version :=
  match options.openapi.or (file.document.map (·.openapi)) with
  | some text => Version.parse text
  | none => .ok .latest

/-- The document of a definitions file, or only its components. -/
def generate (options : Options) (file : DefinitionsFile) : Except Problem Json := do
  let version ← targetVersion options file
  match file.document, options.componentsOnly with
  | some config, false =>
    generateDocument { config with openapi := version.text } file.definitions
  | _, _ => generateComponents version file.definitions

/-- The text that `generate` writes, given what was found at the path of the definitions. -/
def outputText (options : Options) (source : Source) : Except Failure String := do
  let file ← definitionsIn options.definitions source
  let value ← (generate options file).mapError .problem
  return if options.pretty then value.pretty else value.compact

end OpenApi.CommandLine
