/-
# OpenApi.Json.Reader -- reading JSON text

Strict JSON: one value with blanks around it, no comments, no comma after the last
item, no bare control characters in strings. Containers are usable up to 127 deep; the
reading itself has no limit, so a deeper container is recognised and marked unusable.
-/
import OpenApi.Json.Numeral
import OpenApi.Json.Written

namespace OpenApi.Json

namespace Reader

/-- The number of containers that may stand inside each other. -/
def depthLimit : Nat := 127

/-- What may stand between tokens. -/
def isBlank (c : Char) : Bool := c == ' ' || c == '\n' || c == '\t' || c == '\r'

/-- A text without the blanks at its front. -/
def skipBlanks (cs : List Char) : List Char := cs.dropWhile isBlank

/-! ## Strings -/

/-- A piece of a string: a character, or the code unit of a `\u` escape. -/
inductive Piece where
  | char (c : Char)
  | unit (code : Nat)

/-- The value of a hexadecimal digit. -/
def hexDigit? (c : Char) : Option Nat :=
  if '0' ≤ c ∧ c ≤ '9' then some (c.toNat - '0'.toNat)
  else if 'a' ≤ c ∧ c ≤ 'f' then some (c.toNat - 'a'.toNat + 10)
  else if 'A' ≤ c ∧ c ≤ 'F' then some (c.toNat - 'A'.toNat + 10)
  else none

/-- The code unit that four hexadecimal digits write. -/
def codeUnit? (a b c d : Char) : Option Nat := do
  let a ← hexDigit? a
  let b ← hexDigit? b
  let c ← hexDigit? c
  let d ← hexDigit? d
  return ((a * 16 + b) * 16 + c) * 16 + d

/-- The character that a one-letter escape stands for. -/
def escaped? : Char → Option Char
  | '"' => some '"'
  | '\\' => some '\\'
  | '/' => some '/'
  | 'b' => some '\x08'
  | 'f' => some '\x0c'
  | 'n' => some '\n'
  | 'r' => some '\r'
  | 't' => some '\t'
  | _ => none

/-- The pieces of a string up to its closing quote, and what follows; `done` holds the
pieces found so far, the last one first. -/
def pieces? (done : List Piece) : List Char → Option (List Piece × List Char)
  | [] => none
  | '"' :: rest => some (done.reverse, rest)
  | '\\' :: 'u' :: a :: b :: c :: d :: rest =>
    match codeUnit? a b c d with
    | some code => pieces? (.unit code :: done) rest
    | none => none
  | '\\' :: c :: rest =>
    match escaped? c with
    | some e => pieces? (.char e :: done) rest
    | none => none
  | c :: rest => if c.toNat < 0x20 then none else pieces? (.char c :: done) rest

/-- Whether a code unit is the first half of a pair. -/
def isLeading (code : Nat) : Bool := 0xD800 ≤ code && code < 0xDC00

/-- Whether a code unit is the second half of a pair. -/
def isTrailing (code : Nat) : Bool := 0xDC00 ≤ code && code < 0xE000

/-- The characters that pieces stand for, unless half of a pair stands alone. -/
def join? : List Piece → Option (List Char)
  | [] => some []
  | .char c :: rest => (join? rest).map (c :: ·)
  | .unit a :: .unit b :: rest =>
    if isLeading a && isTrailing b then
      (join? rest).map (Char.ofNat (0x10000 + (a - 0xD800) * 0x400 + (b - 0xDC00)) :: ·)
    else if isLeading a || isTrailing a then none
    else (join? (.unit b :: rest)).map (Char.ofNat a :: ·)
  | .unit a :: rest =>
    if isLeading a || isTrailing a then none
    else (join? rest).map (Char.ofNat a :: ·)

/-- The text of a string after its opening quote, if it has one, and what follows. -/
def text? (cs : List Char) : Option (Option String × List Char) :=
  (pieces? [] cs).map fun (ps, rest) => ((join? ps).map String.ofList, rest)

/-! ## Values -/

/-- A container that stands inside `depthLimit` others cannot be used. -/
def contained (room : Nat) (w : Written) : Written := if room = 0 then .unusable else w

/-- An object, unless one of its keys has no text. -/
def objectOf (members : List (Option String × Written)) : Written :=
  match members.mapM fun (key, w) => key.map (·, w) with
  | some members => .object members
  | none => .unusable

/-- A member's key with the colon after it, and what follows. -/
def key? (cs : List Char) : Option (Option String × List Char) :=
  match cs with
  | '"' :: rest =>
    match text? rest with
    | some (key, rest) =>
      match skipBlanks rest with
      | ':' :: rest => some (key, skipBlanks rest)
      | _ => none
    | none => none
  | _ => none

mutual

/-- The value at the front of a text, and what follows. `room` is the number of
containers that may still be opened. -/
def value? (fuel room : Nat) (cs : List Char) : Option (Written × List Char) :=
  match fuel, cs with
  | 0, _ => none
  | fuel + 1, '[' :: rest =>
    match skipBlanks rest with
    | ']' :: rest => some (contained room (.array []), rest)
    | rest => items? fuel room [] rest
  | fuel + 1, '\x7b' :: rest =>
    match skipBlanks rest with
    | '\x7d' :: rest => some (contained room (.object []), rest)
    | rest => members? fuel room [] rest
  | _ + 1, '"' :: rest =>
    (text? rest).map fun (text, rest) =>
      (match text with
        | some text => .string text
        | none => .unusable, rest)
  | _ + 1, 'n' :: 'u' :: 'l' :: 'l' :: rest => some (.null, rest)
  | _ + 1, 't' :: 'r' :: 'u' :: 'e' :: rest => some (.bool true, rest)
  | _ + 1, 'f' :: 'a' :: 'l' :: 's' :: 'e' :: rest => some (.bool false, rest)
  | _ + 1, cs =>
    (Numeral.scan? cs).map fun (numeral, rest) =>
      (match numeral.value? with
        | some n => .number n
        | none => .unusable, rest)

/-- The rest of an array after the items in `done`, which are in reverse. -/
def items? (fuel room : Nat) (done : List Written) (cs : List Char) :
    Option (Written × List Char) :=
  match fuel with
  | 0 => none
  | fuel + 1 =>
    match value? fuel (room - 1) cs with
    | none => none
    | some (item, rest) =>
      match skipBlanks rest with
      | ',' :: rest => items? fuel room (item :: done) (skipBlanks rest)
      | ']' :: rest => some (contained room (.array (item :: done).reverse), rest)
      | _ => none

/-- The rest of an object after the members in `done`, which are in reverse. -/
def members? (fuel room : Nat) (done : List (Option String × Written)) (cs : List Char) :
    Option (Written × List Char) :=
  match fuel with
  | 0 => none
  | fuel + 1 =>
    match key? cs with
    | none => none
    | some (key, rest) =>
      match value? fuel (room - 1) rest with
      | none => none
      | some (item, rest) =>
        match skipBlanks rest with
        | ',' :: rest => members? fuel room ((key, item) :: done) (skipBlanks rest)
        | '\x7d' :: rest => some (contained room (objectOf ((key, item) :: done).reverse), rest)
        | _ => none

end

end Reader

/-- Reads a text that holds one JSON value. -/
def Written.read? (text : String) : Option Written :=
  let cs := Reader.skipBlanks text.toList
  match Reader.value? (2 * cs.length + 2) Reader.depthLimit cs with
  | some (w, rest) => if (Reader.skipBlanks rest).isEmpty then some w else none
  | none => none

/-- Reads a text as a JSON value. -/
def read? (text : String) : Option Json := (Written.read? text).bind Written.value?

end OpenApi.Json
