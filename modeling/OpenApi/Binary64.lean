/-
# OpenApi.Binary64 -- double-precision numbers as exact values

A finite double is a sign and the *rank* of its magnitude among the nonnegative
doubles, counted from zero. Ranks are evenly spaced in the order of the values,
so neighbours are consecutive ranks, every rank below the limit is a double, and
no double has two representations (the two zeros apart, which differ in sign).

Magnitudes are measured in *units* of `2^-1074`, the least positive double: every
finite double is a whole number of units. Arithmetic is done on exact ratios and
rounded once, to the nearest double, a tie going to the even rank.
-/

namespace OpenApi

/-! ## Finite doubles -/

/-- One more than the rank of the greatest finite double. -/
def Binary64.rankLimit : Nat := 2047 * Nat.pow 2 52

/-- A finite double: a sign and the rank of its magnitude. -/
structure Binary64.Finite where
  negative : Bool
  rank : Fin Binary64.rankLimit
  deriving DecidableEq, Repr

/-- A double: finite, one of the two infinities, or not a number. -/
inductive Binary64 where
  | finite (value : Binary64.Finite)
  | infinite (negative : Bool)
  | nan
  deriving DecidableEq, Repr

namespace Binary64

/-- The number of units in one: `1 = 2^1074 · 2^-1074`. -/
def one : Nat := Nat.pow 2 1074

namespace Finite

/-- How many times the spacing of the least doubles has doubled at this magnitude. -/
def scale (d : Finite) : Nat := d.rank.val / Nat.pow 2 52 - 1

/-- The integer that `2^scale` units are multiplied by. -/
def significand (d : Finite) : Nat :=
  if d.rank.val < Nat.pow 2 52 then d.rank.val else Nat.pow 2 52 + d.rank.val % Nat.pow 2 52

/-- The magnitude in units of `2^-1074`. -/
def units (d : Finite) : Nat := d.significand * Nat.pow 2 d.scale

/-- Whether the magnitude is zero, whatever the sign. -/
def isZero (d : Finite) : Bool := d.rank.val == 0

/-- The integer that a double is, if it is one. Both zeros are `0`. -/
def toInt? (d : Finite) : Option Int :=
  if d.units % one = 0 then
    let magnitude : Int := (d.units / one : Nat)
    some (if d.negative then -magnitude else magnitude)
  else
    none

/-- Equality of values: the two zeros are one value. -/
def same (a b : Finite) : Bool := a == b || (a.isZero && b.isZero)

/-- Zero with the given sign. -/
def zero (negative : Bool) : Finite := ⟨negative, ⟨0, by decide⟩⟩

end Finite

/-! ## Rounding -/

/-- The integer nearest to `num / den`; a half goes to the even neighbour. -/
def roundHalfEven (num den : Nat) : Nat :=
  let quotient := num / den
  let twice := 2 * (num % den)
  if twice < den then quotient
  else if den < twice then quotient + 1
  else quotient + quotient % 2

/-- The rank of the double nearest to `num / den`, with the spacing of doubles
continued above the greatest one. -/
def nearestRank (num den : Nat) : Nat :=
  let units := num * one
  let scale := (units / den).log2 + 1 - 53
  -- Rounding up to the next power of two carries into the scale by itself.
  scale * Nat.pow 2 52 + roundHalfEven units (den * Nat.pow 2 scale)

/-- The double nearest to `± num / den`; too large a ratio becomes an infinity. -/
def ofRatio (negative : Bool) (num den : Nat) : Binary64 :=
  let rank := nearestRank num den
  if h : rank < rankLimit then .finite ⟨negative, ⟨rank, h⟩⟩ else .infinite negative

/-- The double nearest to an integer. -/
def ofInt (i : Int) : Binary64 := ofRatio (decide (i < 0)) i.natAbs 1

/-- `d · num / den`, rounded once. -/
def Finite.scaled (d : Finite) (num den : Nat) : Binary64 :=
  ofRatio d.negative (d.units * num) (one * den)

/-- The integer that a double is, if it is one. -/
def toInt? : Binary64 → Option Int
  | .finite d => d.toInt?
  | .infinite _ => none
  | .nan => none

/-- A natural number rounded to 53 significant bits, as the nearest double holds it. -/
def roundedNat (n : Nat) : Nat :=
  let scale := n.log2 + 1 - 53
  roundHalfEven n (Nat.pow 2 scale) * Nat.pow 2 scale

end Binary64

end OpenApi
