/-
# OpenApi.Json.Numeral -- the numerals of JSON and the numbers they stand for

A numeral without fraction and exponent that fits in 64 bits stands for an integer.
Every other numeral stands for a double, found in two rounded steps: its leading
digits, as many as form a number below `2^64`, make the significand, and the nearest
double to it is multiplied or divided by the nearest double to a power of ten.

A minus sign before zero gives the double `-0.0`. A numeral too large for a double
stands for nothing; one too small stands for zero.
-/
import OpenApi.Json.Basic

namespace OpenApi.Json

/-- The parts of a numeral, its digits as numbers below ten. -/
structure Numeral where
  negative : Bool
  whole : List Nat
  fraction : Option (List Nat)
  exponent : Option (Bool × List Nat)
  deriving Repr

namespace Numeral

/-! ## Scanning -/

/-- The value of a decimal digit. -/
def digit? (c : Char) : Option Nat :=
  if '0' ≤ c ∧ c ≤ '9' then some (c.toNat - '0'.toNat) else none

/-- The digits at the front of a text, and what follows them. -/
def digits : List Char → List Nat × List Char
  | [] => ([], [])
  | c :: rest =>
    match digit? c with
    | some d => let (ds, after) := digits rest; (d :: ds, after)
    | none => ([], c :: rest)

/-- At least one digit, and what follows. -/
def digits1? (cs : List Char) : Option (List Nat × List Char) :=
  match digits cs with
  | ([], _) => none
  | (ds, rest) => some (ds, rest)

/-- The part before the point: a single zero, or digits of which the first is not zero. -/
def whole? (cs : List Char) : Option (List Nat × List Char) :=
  match digits cs with
  | ([], _) => none
  | ([0], rest) => some ([0], rest)
  | (0 :: _, _) => none
  | (ds, rest) => some (ds, rest)

/-- The point and the digits after it, if there is a point. -/
def fraction? : List Char → Option (Option (List Nat) × List Char)
  | '.' :: rest => (digits1? rest).map fun (ds, after) => (some ds, after)
  | cs => some (none, cs)

/-- The digits of an exponent and whether a minus sign stands before them. -/
def signedDigits? : List Char → Option ((Bool × List Nat) × List Char)
  | '-' :: rest => (digits1? rest).map fun (ds, after) => ((true, ds), after)
  | '+' :: rest => (digits1? rest).map fun (ds, after) => ((false, ds), after)
  | cs => (digits1? cs).map fun (ds, after) => ((false, ds), after)

/-- The exponent, if there is one. -/
def exponent? : List Char → Option (Option (Bool × List Nat) × List Char)
  | 'e' :: rest | 'E' :: rest => (signedDigits? rest).map fun (e, after) => (some e, after)
  | cs => some (none, cs)

/-- The numeral at the front of a text, and what follows it. -/
def scan? (cs : List Char) : Option (Numeral × List Char) := do
  let (negative, cs) := match cs with
    | '-' :: rest => (true, rest)
    | _ => (false, cs)
  let (whole, cs) ← whole? cs
  let (fraction, cs) ← fraction? cs
  let (exponent, cs) ← exponent? cs
  return (⟨negative, whole, fraction, exponent⟩, cs)

/-! ## Value -/

/-- Appends digits to a significand as long as it stays below `2^64`; what is left over
comes second. -/
def absorb : Nat → List Nat → Nat × List Nat
  | significand, [] => (significand, [])
  | significand, d :: ds =>
    if significand * 10 + d < Nat.pow 2 64 then absorb (significand * 10 + d) ds
    else (significand, d :: ds)

/-- The number that a list of digits writes. -/
def natOf (ds : List Nat) : Nat := ds.foldl (fun n d => n * 10 + d) 0

/-- Divides by the double nearest to `10^308`, so many times or until zero is left. -/
def divideDown : Nat → Binary64.Finite → Option Binary64.Finite
  | 0, d => some d
  | steps + 1, d =>
    if d.isZero then some d
    else match d.scaled 1 (Binary64.roundedNat (Nat.pow 10 308)) with
      | .finite smaller => divideDown steps smaller
      | _ => none

/-- A double if it is finite. -/
def finite? : Binary64 → Option Binary64.Finite
  | .finite d => some d
  | _ => none

/-- `± significand · 10^exponent`, the power taken in steps of at most `10^308`. -/
def double? (negative : Bool) (significand : Nat) (exponent : Int) : Option Binary64.Finite := do
  let start ← finite? (Binary64.ofRatio negative significand 1)
  if exponent > 308 then
    if start.isZero then some start else none
  else if 0 ≤ exponent then
    finite? (start.scaled (Binary64.roundedNat (Nat.pow 10 exponent.toNat)) 1)
  else
    let down := exponent.natAbs
    let steps := (down - 1) / 308
    let small ← divideDown steps start
    finite? (small.scaled 1 (Binary64.roundedNat (Nat.pow 10 (down - 308 * steps))))

/-- The greatest exponent that is taken as written. -/
def exponentLimit : Nat := Nat.pow 2 31 - 1

/-- The number a numeral stands for, unless it is too large for a double. -/
def value? (n : Numeral) : Option Number :=
  let (significand, dropped) := absorb 0 n.whole
  match n.fraction, n.exponent, dropped with
  | none, none, [] =>
    if !n.negative then some (.int significand)
    else if 0 < significand ∧ significand ≤ Nat.pow 2 63 then some (.int (-(significand : Int)))
    else (double? true significand 0).map .double
  | _, _, _ =>
    let fraction := n.fraction.getD []
    let (significand, unread) := absorb significand fraction
    -- A whole digit left out counts up, a digit taken after the point counts down.
    let shift : Int := (dropped.length : Int) - ((fraction.length - unread.length : Nat) : Int)
    match n.exponent with
    | none => (double? n.negative significand shift).map .double
    | some (down, ds) =>
      let exponent := natOf ds
      if exponent ≤ exponentLimit then
        let exponent : Int := if down then shift - exponent else shift + exponent
        (double? n.negative significand exponent).map .double
      -- Beyond the limit only the direction counts.
      else if !down && significand != 0 then none
      else some (.double (.zero n.negative))

end Numeral

end OpenApi.Json
