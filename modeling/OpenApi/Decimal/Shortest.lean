/-
# OpenApi.Decimal.Shortest -- the shortest decimal inside an interval

A decimal `digits · 10^exponent` stands for a value when it lies in the interval of
numbers that are read back as that value. Among the decimals that do, the shortest
one is chosen; of two of that length, the one nearer to the value, and an exact tie
goes to the even digit.

A grid of spacing `10^p` meets the interval only if one of the two neighbours of the
value on that grid does, so each length needs two tests, made in exact integers.
-/

namespace OpenApi

/-- The number `digits · 10^exponent`. -/
structure Decimal where
  digits : Nat
  exponent : Int
  deriving DecidableEq, Repr

/-- The positive numbers that are read back as one value, as fractions over a common
denominator: from `low` to `high` around `value`, the ends included or not. -/
structure Decimal.Interval where
  low : Nat
  value : Nat
  high : Nat
  denominator : Nat
  closed : Bool

namespace Decimal

/-- The number of decimal digits of a natural number, one for zero. -/
def digitCount (n : Nat) : Nat := (Nat.toDigits 10 n).length

/-- The same number with no zero at the end of its digits. `fuel` bounds the number of
zeros taken off. -/
def dropTrailingZeros : Nat → Decimal → Decimal
  | 0, d => d
  | fuel + 1, d =>
    if d.digits ≠ 0 ∧ d.digits % 10 = 0 then
      dropTrailingZeros fuel ⟨d.digits / 10, d.exponent + 1⟩
    else d

namespace Interval

/-- Whether `digits · 10^exponent` lies in the interval. -/
def contains (i : Interval) (d : Decimal) : Bool :=
  let up := Nat.pow 10 (-d.exponent).toNat
  let point := d.digits * i.denominator * Nat.pow 10 d.exponent.toNat
  if i.closed then
    decide (i.low * up ≤ point) && decide (point ≤ i.high * up)
  else
    decide (i.low * up < point) && decide (point < i.high * up)

/-- The power of ten of the value's first digit. -/
def magnitude (i : Interval) : Int :=
  let guess : Int := (digitCount i.value : Int) - digitCount i.denominator
  if i.denominator * Nat.pow 10 guess.toNat ≤ i.value * Nat.pow 10 (-guess).toNat then guess
  else guess - 1

/-- The best decimal of the interval on the grid of spacing `10^exponent`, if any. -/
def onGrid? (i : Interval) (exponent : Int) : Option Decimal :=
  let num := i.value * Nat.pow 10 (-exponent).toNat
  let den := i.denominator * Nat.pow 10 exponent.toNat
  let below : Decimal := ⟨num / den, exponent⟩
  let above : Decimal := ⟨num / den + 1, exponent⟩
  let twice := 2 * (num % den)
  let preferBelow := decide (twice < den) || (twice == den && below.digits % 2 == 0)
  match i.contains below, i.contains above with
  | true, true => some (if preferBelow then below else above)
  | true, false => some below
  | false, true => some above
  | false, false => none

/-- The shortest decimal of the interval with at most `most` digits; with none, the
value cut after `most` digits. -/
def shortest (i : Interval) (most : Nat) : Decimal :=
  let exponents := (List.range most).map fun (extra : Nat) => i.magnitude - (extra : Int)
  match exponents.findSome? i.onGrid? with
  | some d => dropTrailingZeros most d
  | none =>
    let exponent := i.magnitude - (most : Int) + 1
    ⟨i.value * Nat.pow 10 (-exponent).toNat / (i.denominator * Nat.pow 10 exponent.toNat), exponent⟩

end Interval

end Decimal

end OpenApi
