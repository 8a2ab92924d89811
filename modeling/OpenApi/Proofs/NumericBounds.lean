/-
# OpenApi.Proofs.NumericBounds -- the integers that a list of number checks allows

A list of number checks is written check by check, and what stands under a key in the end is what
the last check wrote that writes the key. The two dialects divide a bound among keys in different
ways. In `flags` every bound of a side goes under one key, and a flag that makes it strict stays
once it is written. In `types` strict bounds have a key of their own, so that the last strict bound
and the last other one hold together.

So the dialects allow the same integers on a side exactly if the last bound is also the sharper one
(`Side.Settled`). Where bounds of one kind only are given, it is.

All numbers are compared in units of the least positive double, in which every integer and every
finite double is a whole number.
-/
import Mathlib.Algebra.Order.Ring.Int
import OpenApi.Proofs.Entries
import OpenApi.Version

namespace OpenApi

/-! ## Numbers in units -/

/-- A double in units of `2^-1074`. -/
def Binary64.Finite.signedUnits (d : Binary64.Finite) : Int :=
  if d.negative then -(d.units : Int) else d.units

/-- An integer in units of `2^-1074`. -/
def Binary64.unitsOfInt (i : Int) : Int := i * (Binary64.one : Int)

/-- A number in units of `2^-1074`. -/
def Json.Number.units : Json.Number → Int
  | .int i => Binary64.unitsOfInt i
  | .double d => d.signedUnits

theorem Binary64.one_pos : 0 < Binary64.one := by decide +kernel

theorem Binary64.unitsOfInt_le {i j : Int} : unitsOfInt i ≤ unitsOfInt j ↔ i ≤ j :=
  Int.mul_le_mul_right (Int.natCast_pos.mpr one_pos)

theorem Binary64.unitsOfInt_lt {i j : Int} : unitsOfInt i < unitsOfInt j ↔ i < j :=
  Int.mul_lt_mul_right (Int.natCast_pos.mpr one_pos)

/-- The number under a key, in units. -/
def Fragment.number? (keys : Fragment) (key : String) : Option Int :=
  match Entries.get? keys key with
  | some (.number n) => some n.units
  | _ => none

/-- Whether a flag is set. -/
def Fragment.isSet (keys : Fragment) (key : String) : Bool :=
  match Entries.get? keys key with
  | some (.bool set) => set
  | _ => false

/-! ## Sides -/

/-- The side from which a bound limits numbers. -/
inductive Side where
  | below
  | above
  deriving DecidableEq, Repr

namespace Side

/-- The key of a bound. -/
def key : Side → String
  | below => "minimum"
  | above => "maximum"

/-- The key that makes a bound strict, or that holds a strict bound. -/
def strictKey : Side → String
  | below => "exclusiveMinimum"
  | above => "exclusiveMaximum"

/-- Whether a bound lets a number through. A strict bound does not let itself through. -/
def Admits (side : Side) (strict : Bool) (bound x : Int) : Prop :=
  match side, strict with
  | below, false => bound ≤ x
  | below, true => bound < x
  | above, false => x ≤ bound
  | above, true => x < bound

/-- The first integer that a strict bound lets through. -/
def first : Side → Int → Int
  | below, bound => bound + 1
  | above, bound => bound - 1

/-- Whether the keys of a side let an integer through, as a dialect reads them: in `flags` the flag
makes the one bound strict, in `types` there is a bound of each kind. -/
def Allows (side : Side) (dialect : Dialect) (keys : Fragment) (x : Int) : Prop :=
  match dialect with
  | .flags => ∀ bound, Fragment.number? keys side.key = some bound →
      side.Admits (Fragment.isSet keys side.strictKey) bound (Binary64.unitsOfInt x)
  | .types =>
    (∀ bound, Fragment.number? keys side.key = some bound →
      side.Admits false bound (Binary64.unitsOfInt x))
    ∧ ∀ bound, Fragment.number? keys side.strictKey = some bound →
      side.Admits true bound (Binary64.unitsOfInt x)

theorem admits_units (side : Side) (strict : Bool) (bound x : Int) :
    side.Admits strict (Binary64.unitsOfInt bound) (Binary64.unitsOfInt x)
      ↔ side.Admits strict bound x := by
  cases side <;> cases strict <;>
    simp only [Admits, Binary64.unitsOfInt_le, Binary64.unitsOfInt_lt]

end Side

/-- Whether an integer is a multiple of the factor that the keys give, if they give one. -/
def Fragment.AllowsMultiple (keys : Fragment) (x : Int) : Prop :=
  ∀ factor, Fragment.number? keys "multipleOf" = some factor → factor ∣ Binary64.unitsOfInt x

/-- Whether the keys of a number allow an integer, as a dialect reads them. -/
def Dialect.Allows (dialect : Dialect) (keys : Fragment) (x : Int) : Prop :=
  (∀ side : Side, side.Allows dialect keys x) ∧ Fragment.AllowsMultiple keys x

/-! ## Bounds of checks -/

namespace NumberCheck

/-- The bound that a check gives on a side, and whether it is strict. -/
def bound? (side : Side) : NumberCheck → Option (Bool × Binary64)
  | min bound inclusive => if side = .below then some (!inclusive, bound) else none
  | max bound inclusive => if side = .above then some (!inclusive, bound) else none
  | _ => none

/-- A check whose bound, if it gives one, is an integer of magnitude below `2^63`. -/
def Whole (check : NumberCheck) : Prop :=
  ∀ side strict bound, check.bound? side = some (strict, bound) →
    ∃ i : Int, bound.toInt? = some i ∧ i.natAbs < Nat.pow 2 63

theorem whole_min {bound : Binary64} {i : Int} (h : bound.toInt? = some i)
    (hi : i.natAbs < Nat.pow 2 63) (inclusive : Bool) : (min bound inclusive).Whole := by
  intro side strict given hgiven
  cases side with
  | below =>
    obtain ⟨_, rfl⟩ : (!inclusive) = strict ∧ bound = given := by simpa [bound?] using hgiven
    exact ⟨i, h, hi⟩
  | above => simp [bound?] at hgiven

/-- The integer that a check gives for a bound on a side. -/
def whole? (side : Side) (check : NumberCheck) : Option (Bool × Int) :=
  (check.bound? side).bind fun given => given.2.toInt?.map fun i => (given.1, i)

end NumberCheck

/-- The integers that checks give for bounds on a side, in order, and whether they are strict. -/
def Side.bounds (side : Side) (checks : List NumberCheck) : List (Bool × Int) :=
  checks.filterMap (NumberCheck.whole? side)

/-- The last bound of one kind. -/
def Side.last? (side : Side) (checks : List NumberCheck) (strict : Bool) : Option Int :=
  ((side.bounds checks).filterMap fun given =>
    if given.1 = strict then some given.2 else none).getLast?

/-! ## What the checks leave under the keys -/

namespace Dialect

variable {side : Side} {checks : List NumberCheck} {check : NumberCheck}

theorem nodup_keys_checkKeys (dialect : Dialect) (check : NumberCheck) :
    (Entries.keys (dialect.checkKeys check)).Nodup := by
  cases dialect <;> cases check with
  | min bound inclusive | max bound inclusive =>
    cases inclusive <;> simp [checkKeys, Entries.keys]
  | multipleOf factor | int | finite => simp [checkKeys, Entries.keys]

/-- What stands under a key is what the last check wrote there. -/
theorem get?_numberKeys (dialect : Dialect) (checks : List NumberCheck) (key : String) :
    Entries.get? (dialect.numberKeys checks) key
      = (checks.filterMap fun check => Entries.get? (dialect.checkKeys check) key).getLast? := by
  rw [numberKeys, Entries.get?_foldl_extend _ (nodup_keys_checkKeys dialect)]
  exact Option.or_none

theorem numberValue_of_toInt? {bound : Binary64} {i : Int} (h : bound.toInt? = some i)
    (hi : i.natAbs < Nat.pow 2 63) : numberValue bound = .int i := by
  rw [numberValue, h]
  exact if_pos hi

/-- What a check writes under the keys of a side, in `flags` and in `types`. -/
theorem get?_checkKeys (whole : check.Whole) (side : Side) :
    Entries.get? (flags.checkKeys check) side.key
        = (check.whole? side).map (fun given => Json.int given.2)
      ∧ Entries.get? (flags.checkKeys check) side.strictKey
        = (check.whole? side).bind (fun given => if given.1 then some (.bool true) else none)
      ∧ ∀ strict, Entries.get? (types.checkKeys check) (if strict then side.strictKey else side.key)
        = (check.whole? side).bind fun given =>
            if given.1 = strict then some (.int given.2) else none := by
  cases check with
  | min bound inclusive =>
    obtain ⟨i, hi, hlt⟩ := whole .below (!inclusive) bound rfl
    have hvalue := numberValue_of_toInt? hi hlt
    cases side <;> cases inclusive <;>
      simp [checkKeys, NumberCheck.whole?, NumberCheck.bound?, Side.key, Side.strictKey,
        Entries.get?, hi, hvalue]
  | max bound inclusive =>
    obtain ⟨i, hi, hlt⟩ := whole .above (!inclusive) bound rfl
    have hvalue := numberValue_of_toInt? hi hlt
    cases side <;> cases inclusive <;>
      simp [checkKeys, NumberCheck.whole?, NumberCheck.bound?, Side.key, Side.strictKey,
        Entries.get?, hi, hvalue]
  | multipleOf factor =>
    cases side <;>
      simp [checkKeys, NumberCheck.whole?, NumberCheck.bound?, Side.key, Side.strictKey,
        Entries.get?]
  | int => cases side <;> simp [checkKeys, NumberCheck.whole?, NumberCheck.bound?, Entries.get?]
  | finite => cases side <;> simp [checkKeys, NumberCheck.whole?, NumberCheck.bound?, Entries.get?]

end Dialect

/-! ## What the keys allow -/

namespace Side

variable {side : Side} {checks : List NumberCheck} {x : Int}

/-- A bound that is the last one is the last one of its kind. -/
theorem last?_of_getLast? {given : Bool × Int} (h : (side.bounds checks).getLast? = some given) :
    side.last? checks given.1 = some given.2 := by
  obtain ⟨earlier, hbounds⟩ := List.getLast?_eq_some_iff.mp h
  rw [last?, hbounds, List.filterMap_append]
  simp

/-- A bound that is the last one of its kind is not beyond the last one. -/
theorem exists_getLast?_of_last? {strict : Bool} {bound : Int}
    (h : side.last? checks strict = some bound) :
    ∃ given, (side.bounds checks).getLast? = some given := by
  obtain ⟨given, hgiven, _⟩ := List.mem_filterMap.mp (List.mem_of_getLast? h)
  exact Option.isSome_iff_exists.mp (List.getLast?_isSome.mpr (List.ne_nil_of_mem hgiven))

theorem getLast?_of_kind {β : Type} (strict : Bool) (f : Int → β) :
    (checks.filterMap fun check => (check.whole? side).bind fun given =>
        if given.1 = strict then some (f given.2) else none).getLast?
      = (side.last? checks strict).map f := by
  rw [last?, ← List.getLast?_map, List.map_filterMap, bounds, List.filterMap_filterMap]
  congr 2
  funext check
  congr 1
  funext given
  split <;> rfl

variable (whole : ∀ check ∈ checks, check.Whole)

include whole

/-- In `flags` the last bound of a side stands under its key. -/
theorem number?_flags :
    Fragment.number? (Dialect.flags.numberKeys checks) side.key
      = ((side.bounds checks).getLast?).map fun given => Binary64.unitsOfInt given.2 := by
  have hget : Entries.get? (Dialect.flags.numberKeys checks) side.key
      = ((side.bounds checks).getLast?).map fun given => Json.int given.2 := by
    rw [Dialect.get?_numberKeys, ← List.getLast?_map, bounds, List.map_filterMap]
    congr 1
    exact List.filterMap_congr fun check hcheck => (Dialect.get?_checkKeys (whole check hcheck) side).1
  rw [Fragment.number?, hget]
  cases (side.bounds checks).getLast? <;> rfl

/-- In `flags` the flag of a side is set if some bound is strict. -/
theorem isSet_flags :
    Fragment.isSet (Dialect.flags.numberKeys checks) side.strictKey
      = (side.last? checks true).isSome := by
  have hget : Entries.get? (Dialect.flags.numberKeys checks) side.strictKey
      = (side.last? checks true).map fun _ => Json.bool true := by
    rw [Dialect.get?_numberKeys, ← getLast?_of_kind]
    congr 1
    exact List.filterMap_congr fun check hcheck =>
      (Dialect.get?_checkKeys (whole check hcheck) side).2.1
  rw [Fragment.isSet, hget]
  cases side.last? checks true <;> rfl

/-- In `types` the last bound of each kind stands under the key of its kind. -/
theorem number?_types (strict : Bool) :
    Fragment.number? (Dialect.types.numberKeys checks) (if strict then side.strictKey else side.key)
      = (side.last? checks strict).map Binary64.unitsOfInt := by
  have hget : Entries.get? (Dialect.types.numberKeys checks)
      (if strict then side.strictKey else side.key) = (side.last? checks strict).map Json.int := by
    rw [Dialect.get?_numberKeys, ← getLast?_of_kind]
    congr 1
    exact List.filterMap_congr fun check hcheck =>
      (Dialect.get?_checkKeys (whole check hcheck) side).2.2 strict
  rw [Fragment.number?, hget]
  cases side.last? checks strict <;> rfl

/-- In `flags` an integer is let through by the last bound, which is strict if any bound is. -/
theorem allows_flags_iff (x : Int) :
    side.Allows .flags (Dialect.flags.numberKeys checks) x
      ↔ ∀ given, (side.bounds checks).getLast? = some given →
          side.Admits (side.last? checks true).isSome given.2 x := by
  rw [Allows, number?_flags whole, isSet_flags whole]
  cases hlast : (side.bounds checks).getLast? with
  | none => simp
  | some given => simp [admits_units]

/-- In `types` an integer is let through by the last bound of each kind. -/
theorem allows_types_iff (x : Int) :
    side.Allows .types (Dialect.types.numberKeys checks) x
      ↔ ∀ strict bound, side.last? checks strict = some bound → side.Admits strict bound x := by
  have hclosed : Fragment.number? (Dialect.types.numberKeys checks) side.key
      = (side.last? checks false).map Binary64.unitsOfInt := number?_types whole false
  have hstrict : Fragment.number? (Dialect.types.numberKeys checks) side.strictKey
      = (side.last? checks true).map Binary64.unitsOfInt := number?_types whole true
  rw [Allows, hclosed, hstrict, Bool.forall_bool]
  simp [admits_units]

end Side

/-! ## Where the dialects agree -/

namespace Side

/-- The last strict bound of a side and the last other one fit together. If the last bound of all
is strict, the other one is to let through the first integer that it lets through. If it is not, it
counts as strict in `flags`, and is to be the same integer as the last strict bound. -/
def Settled (side : Side) (checks : List NumberCheck) : Prop :=
  ∀ excluded included, side.last? checks true = some excluded →
    side.last? checks false = some included →
    ∀ given, (side.bounds checks).getLast? = some given →
      if given.1 then side.Admits false included (side.first excluded) else included = excluded

variable {side : Side} {included excluded : Int}

/-- Beside a strict bound another one excludes nothing more exactly if it lets through the first
integer that the strict one lets through. -/
theorem admits_beside_iff :
    (∀ x, side.Admits true excluded x ↔ side.Admits false included x ∧ side.Admits true excluded x)
      ↔ side.Admits false included (side.first excluded) := by
  cases side with
  | below =>
    simp only [Admits, first]
    constructor
    · intro h
      have hfirst := (h (excluded + 1)).mp (by omega)
      exact hfirst.1
    · intro h x
      omega
  | above =>
    simp only [Admits, first]
    constructor
    · intro h
      have hfirst := (h (excluded - 1)).mp (by omega)
      exact hfirst.1
    · intro h x
      omega

/-- A bound that is taken as strict says the same as itself beside a strict bound exactly if the
two are the same integer. -/
theorem admits_overtaken_iff :
    (∀ x, side.Admits true included x ↔ side.Admits false included x ∧ side.Admits true excluded x)
      ↔ included = excluded := by
  cases side with
  | below =>
    simp only [Admits]
    constructor
    · intro h
      have hself := h included
      have hnext := h (included + 1)
      omega
    · rintro rfl x
      omega
  | above =>
    simp only [Admits]
    constructor
    · intro h
      have hself := h included
      have hnext := h (included - 1)
      omega
    · rintro rfl x
      omega

/-- The dialects let the same integers through on a side exactly if its bounds fit together. -/
theorem allows_same_iff {checks : List NumberCheck} (whole : ∀ check ∈ checks, check.Whole) :
    (∀ x, side.Allows .flags (Dialect.flags.numberKeys checks) x
        ↔ side.Allows .types (Dialect.types.numberKeys checks) x)
      ↔ side.Settled checks := by
  simp only [allows_flags_iff whole, allows_types_iff whole, Bool.forall_bool, Settled]
  cases hlast : (side.bounds checks).getLast? with
  | none =>
    have hnone (strict : Bool) : side.last? checks strict = none := by
      cases h : side.last? checks strict with
      | none => rfl
      | some bound =>
        obtain ⟨given, hgiven⟩ := exists_getLast?_of_last? h
        rw [hlast] at hgiven
        cases hgiven
    simp [hnone]
  | some given =>
    obtain ⟨strict, bound⟩ := given
    have hbound := last?_of_getLast? hlast
    cases strict with
    | false =>
      cases hexcluded : side.last? checks true with
      | none => simp_all
      | some excluded => simpa [hbound] using admits_overtaken_iff
    | true =>
      cases hincluded : side.last? checks false with
      | none => simp_all
      | some included => simpa [hbound] using admits_beside_iff

end Side

theorem Dialect.get?_multipleOf (checks : List NumberCheck) :
    Entries.get? (flags.numberKeys checks) "multipleOf"
      = Entries.get? (types.numberKeys checks) "multipleOf" := by
  rw [get?_numberKeys, get?_numberKeys]
  congr 1
  refine List.filterMap_congr fun check _ => ?_
  cases check with
  | min bound inclusive | max bound inclusive =>
    cases inclusive <;> simp [checkKeys, Entries.get?]
  | multipleOf factor | int | finite => rfl

/-- What the two dialects make of number checks whose bounds are integers. On each side they let the
same integers through exactly if the bounds of that side fit together; the multiples are the same in
any case. So where the bounds fit together on both sides, the same integers are allowed in all. -/
theorem Dialect.allows_same_integers {checks : List NumberCheck}
    (whole : ∀ check ∈ checks, check.Whole) :
    (∀ side : Side,
        (∀ x, side.Allows .flags (flags.numberKeys checks) x
          ↔ side.Allows .types (types.numberKeys checks) x)
        ↔ side.Settled checks)
      ∧ (∀ x, Fragment.AllowsMultiple (flags.numberKeys checks) x
          ↔ Fragment.AllowsMultiple (types.numberKeys checks) x)
      ∧ ((∀ side : Side, side.Settled checks) →
          ∀ x, flags.Allows (flags.numberKeys checks) x ↔ types.Allows (types.numberKeys checks) x) := by
  have hmultiple (x : Int) : Fragment.AllowsMultiple (flags.numberKeys checks) x
      ↔ Fragment.AllowsMultiple (types.numberKeys checks) x := by
    rw [Fragment.AllowsMultiple, Fragment.AllowsMultiple, Fragment.number?, Fragment.number?,
      get?_multipleOf]
  refine ⟨fun side => Side.allows_same_iff whole, hmultiple, fun settled x => ?_⟩
  have hsides : (∀ side : Side, side.Allows .flags (flags.numberKeys checks) x)
      ↔ ∀ side : Side, side.Allows .types (types.numberKeys checks) x :=
    forall_congr' fun side => (Side.allows_same_iff whole).mpr (settled side) x
  exact and_congr hsides (hmultiple x)

/-- A strict bound with a greater one after it that is not strict. In `flags` the strictness of the
first stays and excludes the second bound itself, which `types` allows. -/
theorem Dialect.strictness_outlives_bound :
    let checks : List NumberCheck := [.min (.ofInt 0) false, .min (.ofInt 5) true]
    (∀ check ∈ checks, check.Whole)
      ∧ flags.numberKeys checks = [("minimum", .int 5), ("exclusiveMinimum", .bool true)]
      ∧ types.numberKeys checks = [("exclusiveMinimum", .int 0), ("minimum", .int 5)]
      ∧ ¬ (∀ x, Side.below.Allows .flags (flags.numberKeys checks) x
          ↔ Side.below.Allows .types (types.numberKeys checks) x)
      ∧ types.Allows (types.numberKeys checks) 5 ∧ ¬ flags.Allows (flags.numberKeys checks) 5 := by
  intro checks
  have hzero : (Binary64.ofInt 0).toInt? = some 0 := by decide +kernel
  have hfive : (Binary64.ofInt 5).toInt? = some 5 := by decide +kernel
  have hwhole : ∀ check ∈ checks, check.Whole := by
    intro check hcheck
    simp only [checks, List.mem_cons, List.not_mem_nil, or_false] at hcheck
    rcases hcheck with rfl | rfl
    · exact NumberCheck.whole_min hzero (by decide) false
    · exact NumberCheck.whole_min hfive (by decide) true
  have hvalueZero := numberValue_of_toInt? hzero (by decide)
  have hvalueFive := numberValue_of_toInt? hfive (by decide)
  have hbelow : Side.below.bounds checks = [(true, 0), (false, 5)] := by
    simp [checks, Side.bounds, NumberCheck.whole?, NumberCheck.bound?, hzero, hfive]
  have habove : Side.above.bounds checks = [] := by
    simp [checks, Side.bounds, NumberCheck.whole?, NumberCheck.bound?]
  have hunsettled : ¬ Side.below.Settled checks := by
    intro settled
    have hlast := settled 0 5 (by simp [Side.last?, hbelow]) (by simp [Side.last?, hbelow]) (false, 5)
      (by simp [hbelow])
    simp at hlast
  have htypes (side : Side) : side.Allows .types (types.numberKeys checks) 5 := by
    rw [Side.allows_types_iff hwhole]
    cases side with
    | below => simp [Side.last?, hbelow, Side.Admits]
    | above => simp [Side.last?, habove]
  refine ⟨hwhole, ?_, ?_, ?_, ⟨htypes, ?_⟩, fun hflags => ?_⟩
  · simp [checks, numberKeys, checkKeys, Entries.extend, Entries.insert, hvalueZero, hvalueFive]
  · simp [checks, numberKeys, checkKeys, Entries.extend, Entries.insert, hvalueZero, hvalueFive]
  · rw [(allows_same_integers hwhole).1 .below]
    exact hunsettled
  · intro factor hfactor
    have hnone : Entries.get? (types.numberKeys checks) "multipleOf" = none := by
      rw [get?_numberKeys]
      simp [checks, checkKeys, Entries.get?]
    rw [Fragment.number?, hnone] at hfactor
    cases hfactor
  · have hexcluded : Side.below.Allows .flags (flags.numberKeys checks) 5 := hflags.1 .below
    rw [Side.allows_flags_iff hwhole] at hexcluded
    simp [Side.last?, hbelow, Side.Admits] at hexcluded

end OpenApi
