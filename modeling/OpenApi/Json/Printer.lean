/-
# OpenApi.Json.Printer -- JSON text of a value

Objects keep the order of their members. A string escapes the quote, the backslash and
the control characters below U+0020, and nothing else. A double is written with the
fewest digits that are read back as it, always with a point or an exponent, so that it
is never mistaken for an integer.
-/
import OpenApi.Decimal.Layout
import OpenApi.Json.Basic

namespace OpenApi

/-! ## Doubles -/

namespace Binary64.Finite

/-- The numbers that are read back as this double: up to half-way to each neighbour, the
half-way points included when the significand is even. Below a power of two the
neighbour is nearer. -/
def interval (d : Finite) : Decimal.Interval :=
  let spacing := Nat.pow 2 d.scale
  let below := if d.significand = Nat.pow 2 52 ∧ 0 < d.scale then spacing else 2 * spacing
  { low := 4 * d.units - below
    value := 4 * d.units
    high := 4 * d.units + 2 * spacing
    denominator := 4 * one
    closed := d.significand % 2 == 0 }

/-- The shortest decimal that is read back as the magnitude. Seventeen digits are enough
for every double. -/
def decimal (d : Finite) : Decimal := d.interval.shortest 17

/-- Doubles are written without an exponent from `0.00001` up to sixteen whole digits. -/
def layout : Decimal.Layout := ⟨-5, 15⟩

/-- The text of a double. -/
def text (d : Finite) : String :=
  (if d.negative then "-" else "") ++ (if d.isZero then "0.0" else d.decimal.text layout)

end Binary64.Finite

namespace Json

/-- The text of a number. -/
def Number.text : Number → String
  | .int i => toString i
  | .double d => d.text

/-! ## Strings -/

/-- A lower-case hexadecimal digit. -/
def hexDigit (n : Nat) : Char := Nat.digitChar n

/-- A character as it stands in a string. -/
def escape (c : Char) : List Char :=
  match c with
  | '"' => ['\\', '"']
  | '\\' => ['\\', '\\']
  | '\x08' => ['\\', 'b']
  | '\t' => ['\\', 't']
  | '\n' => ['\\', 'n']
  | '\x0c' => ['\\', 'f']
  | '\r' => ['\\', 'r']
  | c =>
    if c.toNat < 0x20 then
      ['\\', 'u', '0', '0', hexDigit (c.toNat / 16), hexDigit (c.toNat % 16)]
    else [c]

/-- A text in quotes. -/
def quote (s : String) : String :=
  String.ofList ('"' :: s.toList.flatMap escape ++ ['"'])

/-! ## Values -/

/-- How the parts of a container are set: all on one line, or each on a line of its own,
indented by so many blanks a level. -/
inductive Spacing where
  | compact
  | indented (width : Nat)

/-- What stands before a part that is `depth` levels deep. -/
def Spacing.lineBreak : Spacing → Nat → String
  | .compact, _ => ""
  | .indented width, depth => "\n" ++ String.ofList (List.replicate (width * depth) ' ')

/-- What stands between a key and its value. -/
def Spacing.colon : Spacing → String
  | .compact => ":"
  | .indented _ => ": "

/-- Parts between two brackets; an empty container stays on one line. -/
def Spacing.enclose (spacing : Spacing) (depth : Nat) (opening closing : String)
    (parts : List String) : String :=
  if parts.isEmpty then opening ++ closing
  else
    let inner := spacing.lineBreak (depth + 1)
    opening ++ inner ++ String.intercalate ("," ++ inner) parts ++ spacing.lineBreak depth ++ closing

mutual

/-- The text of a value that stands `depth` levels deep. -/
def text (spacing : Spacing) (depth : Nat) : Json → String
  | .null => "null"
  | .bool b => if b then "true" else "false"
  | .number n => n.text
  | .string s => quote s
  | .array items => spacing.enclose depth "[" "]" (itemTexts spacing (depth + 1) items)
  | .object members =>
    spacing.enclose depth "\x7b" "\x7d" (memberTexts spacing (depth + 1) members)

/-- The texts of the items of an array. -/
def itemTexts (spacing : Spacing) (depth : Nat) : List Json → List String
  | [] => []
  | item :: rest => text spacing depth item :: itemTexts spacing depth rest

/-- The texts of the members of an object. -/
def memberTexts (spacing : Spacing) (depth : Nat) : List (String × Json) → List String
  | [] => []
  | (key, item) :: rest =>
    (quote key ++ spacing.colon ++ text spacing depth item) :: memberTexts spacing depth rest

end

/-- The text of a value on one line, without blanks. -/
def compact (value : Json) : String := value.text .compact 0

/-- The text of a value on several lines, indented by two blanks a level. -/
def pretty (value : Json) : String := value.text (.indented 2) 0

end Json

end OpenApi
