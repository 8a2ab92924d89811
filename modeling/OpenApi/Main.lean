/-
# OpenApi.Main -- the program

Runs a command with real files. Nothing is decided here.
-/
import OpenApi.CommandLine

namespace OpenApi.CommandLine

/-- The words of the operating system with the number of the error. -/
def numbered (code : UInt32) (words : String) : String :=
  words ++ " (os error " ++ toString code ++ ")"

/-- Why a file operation failed. -/
def reasonText (error : IO.Error) : String :=
  match error with
  | .noFileOrDirectory _ code words => numbered code words
  | .inappropriateType _ code words => numbered code words
  | .permissionDenied _ code words => numbered code words
  | .invalidArgument _ code words => numbered code words
  | .resourceExhausted _ code words => numbered code words
  | .alreadyExists _ code words => numbered code words
  | .noSuchThing _ code words => numbered code words
  | .resourceBusy code words => numbered code words
  | .unsupportedOperation code words => numbered code words
  | .hardwareFault code words => numbered code words
  | .illegalOperation code words => numbered code words
  | .otherError code words => numbered code words
  | other => toString other

/-- What is at a path. Only a file that may not be opened is there all the same. -/
def sourceAt (path : String) : IO Source := do
  match ← (IO.FS.Handle.mk path .read).toBaseIO with
  | .error (.permissionDenied _ code words) => return .unreadable (numbered code words)
  | .error _ => return .missing
  | .ok handle =>
    match ← handle.readBinToEnd.toBaseIO with
    | .error error => return .unreadable (reasonText error)
    | .ok bytes =>
      return match String.fromUTF8? bytes with
        | some text => .text text
        | none => .unreadable "stream did not contain valid UTF-8"

/-- Reports a failure. -/
def fail (failure : Failure) : IO UInt32 := do
  IO.eprintln failure.report
  return failure.exitStatus.toUInt32

/-- Writes a text to the standard output, or to a file. -/
def deliver (output : Option String) (text : String) : IO UInt32 :=
  match output with
  | none => do
    IO.println text
    return 0
  | some path => do
    try
      IO.FS.writeFile path text
      return 0
    catch error => fail (.unwritable path (reasonText error))

/-- Runs a command. -/
def Command.run : Command → IO UInt32
  | .programVersion => do
    IO.println CommandLine.programVersion
    return 0
  | .help => do
    IO.println usage
    return 0
  | .versions => do
    Version.texts.forM fun text => IO.println text
    return 0
  | .generate options => do
    let source ← sourceAt options.definitions
    match outputText options source with
    | .error failure => fail failure
    | .ok text => deliver options.output text

end OpenApi.CommandLine

/-- Runs the program with its arguments. -/
def main (arguments : List String) : IO UInt32 := do
  match OpenApi.CommandLine.Command.ofArguments? arguments with
  | some command => command.run
  | none =>
    IO.eprintln OpenApi.CommandLine.usage
    return OpenApi.CommandLine.usageStatus.toUInt32
