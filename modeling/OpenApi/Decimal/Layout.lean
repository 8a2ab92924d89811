/-
# OpenApi.Decimal.Layout -- writing a decimal

With `d.ddd · 10^k` for the number, a layout says for which `k` the digits are written
around a point (`0.001`, `1200.0`) and leaves the others to an explicit exponent
(`1.2e-7`, `1e+21`).
-/
import OpenApi.Decimal.Shortest

namespace OpenApi.Decimal

/-- The exponents of a first digit between which no exponent is written. -/
structure Layout where
  least : Int
  greatest : Int

/-- So many zeros. -/
def zeros (n : Nat) : String := String.ofList (List.replicate n '0')

/-- The digits around a point; `k` is the power of ten of the first digit. At least one
digit stands on each side. -/
def positional (digits : List Char) (k : Int) : String :=
  if k < 0 then
    "0." ++ zeros (k.natAbs - 1) ++ String.ofList digits
  else
    let whole := k.toNat + 1
    if digits.length ≤ whole then
      String.ofList digits ++ zeros (whole - digits.length) ++ ".0"
    else
      String.ofList (digits.take whole) ++ "." ++ String.ofList (digits.drop whole)

/-- The first digit, a point and the others if there are any, and the power of ten. -/
def scientific (digits : List Char) (k : Int) : String :=
  let sign := if k < 0 then "-" else "+"
  let point := if digits.length ≤ 1 then "" else "."
  String.ofList (digits.take 1) ++ point ++ String.ofList (digits.drop 1)
    ++ "e" ++ sign ++ toString k.natAbs

/-- A positive decimal in a layout. -/
def text (layout : Layout) (d : Decimal) : String :=
  let digits := Nat.toDigits 10 d.digits
  let k := d.exponent + digits.length - 1
  if layout.least ≤ k ∧ k ≤ layout.greatest then positional digits k else scientific digits k

end OpenApi.Decimal
