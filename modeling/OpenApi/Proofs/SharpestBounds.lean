/-
# OpenApi.Proofs.SharpestBounds -- number checks together and the bounds that are left of them

A number has to pass all of its checks, so of the bounds on one side the sharpest counts. What is
written keeps the last bound of each kind instead (`Side.allows_types_iff`). Nothing that passes all
checks is shut out by that, but a sharper bound that stands before is lost.

So what is written says the same as the checks exactly if on each side the sharpest bound is the last
one of its kind (`Side.KeepsSharpest`), or if it allows no integer at all. The lengths of a string are
treated as one expects: `StringCheck.minLength?` and `maxLength?` look for the sharpest bound.
-/
import OpenApi.Proofs.NumericBounds

namespace OpenApi

/-! ## Passing a check -/

/-- A whole number of units that is an integer is that integer in units. -/
theorem Binary64.Finite.signedUnits_of_toInt? {d : Binary64.Finite} {i : Int}
    (h : d.toInt? = some i) : d.signedUnits = Binary64.unitsOfInt i := by
  unfold toInt? at h
  unfold signedUnits Binary64.unitsOfInt
  generalize d.units = units at h ⊢
  generalize Binary64.one = one at h ⊢
  split at h
  · rename_i hmod
    have hunits : (units : Int) = (units / one : Nat) * (one : Int) := by
      exact_mod_cast (Nat.div_mul_cancel (Nat.dvd_of_mod_eq_zero hmod)).symm
    cases h
    cases d.negative with
    | false => simpa using hunits
    | true => simpa using hunits
  · cases h

namespace NumberCheck

/-- Whether an integer passes a check. -/
def Passes (x : Int) : NumberCheck → Prop
  | min (.finite bound) inclusive =>
    Side.below.Admits (!inclusive) bound.signedUnits (Binary64.unitsOfInt x)
  | min (.infinite negative) _ => negative = true
  | min .nan _ => False
  | max (.finite bound) inclusive =>
    Side.above.Admits (!inclusive) bound.signedUnits (Binary64.unitsOfInt x)
  | max (.infinite negative) _ => negative = false
  | max .nan _ => False
  | multipleOf (.finite factor) => factor.signedUnits ∣ Binary64.unitsOfInt x
  | multipleOf _ => False
  | int => True
  | finite => True

/-- A check that asks for no multiple. -/
def Unscaled (check : NumberCheck) : Prop := ∀ factor, check ≠ multipleOf factor

/-- What holds of every bound of a check that gives one on a single side. -/
theorem forall_whole?_iff {check : NumberCheck} {side : Side} {given : Bool × Int}
    (own : check.whole? side = some given) (other : ∀ s, s ≠ side → check.whole? s = none)
    {P : Side → Bool × Int → Prop} :
    (∀ s g, check.whole? s = some g → P s g) ↔ P side given := by
  constructor
  · exact fun h => h side given own
  · intro h s g hg
    by_cases hs : s = side
    · subst hs
      cases own.symm.trans hg
      exact h
    · rw [other s hs] at hg
      cases hg

/-- An integer passes a check just in case the integer that the check gives for a bound lets it
through. -/
theorem passes_iff {check : NumberCheck} (whole : check.Whole) (unscaled : check.Unscaled) (x : Int) :
    check.Passes x
      ↔ ∀ side given, check.whole? side = some given → side.Admits given.1 given.2 x := by
  cases check with
  | min bound inclusive =>
    obtain ⟨i, hi, _⟩ := whole .below (!inclusive) bound rfl
    have hown : (min bound inclusive).whole? .below = some (!inclusive, i) := by
      simp [whole?, bound?, hi]
    rw [forall_whole?_iff hown (by intro s hs; simp [whole?, bound?, hs])]
    cases bound with
    | finite d =>
      rw [Passes, Binary64.Finite.signedUnits_of_toInt? hi, Side.admits_units]
    | infinite negative => cases hi
    | nan => cases hi
  | max bound inclusive =>
    obtain ⟨i, hi, _⟩ := whole .above (!inclusive) bound rfl
    have hown : (max bound inclusive).whole? .above = some (!inclusive, i) := by
      simp [whole?, bound?, hi]
    rw [forall_whole?_iff hown (by intro s hs; simp [whole?, bound?, hs])]
    cases bound with
    | finite d =>
      rw [Passes, Binary64.Finite.signedUnits_of_toInt? hi, Side.admits_units]
    | infinite negative => cases hi
    | nan => cases hi
  | multipleOf factor => exact absurd rfl (unscaled factor)
  | int => simp [Passes, whole?, bound?]
  | finite => simp [Passes, whole?, bound?]

end NumberCheck

namespace Side

variable {side : Side} {checks : List NumberCheck} {x : Int}

/-- An integer passes all checks just in case all bounds let it through. -/
theorem forall_passes_iff (whole : ∀ check ∈ checks, check.Whole)
    (unscaled : ∀ check ∈ checks, check.Unscaled) :
    (∀ check ∈ checks, check.Passes x)
      ↔ ∀ side : Side, ∀ given ∈ side.bounds checks, side.Admits given.1 given.2 x := by
  constructor
  · intro h side given hgiven
    obtain ⟨check, hcheck, hwhole⟩ := List.mem_filterMap.mp hgiven
    exact (NumberCheck.passes_iff (whole check hcheck) (unscaled check hcheck) x).mp (h check hcheck)
      side given hwhole
  · intro h check hcheck
    refine (NumberCheck.passes_iff (whole check hcheck) (unscaled check hcheck) x).mpr ?_
    exact fun side given hwhole => h side given (List.mem_filterMap.mpr ⟨check, hcheck, hwhole⟩)

/-! ## The sharpest bound of a side -/

/-- The first integer that a bound lets through. -/
def start (side : Side) (strict : Bool) (bound : Int) : Int :=
  if strict then side.first bound else bound

/-- A bound lets through what is not before the first integer that it lets through. -/
theorem admits_iff_start (strict : Bool) (bound : Int) :
    side.Admits strict bound x ↔ side.Admits false (side.start strict bound) x := by
  cases side <;> cases strict <;>
    simp only [Admits, start, first, if_true, if_false, Bool.false_eq_true] <;> omega

theorem Admits.trans {strict : Bool} {bound y : Int} (h : side.Admits strict bound x)
    (hy : side.Admits false x y) : side.Admits strict bound y := by
  cases side <;> cases strict <;> simp only [Admits] at * <;> omega

theorem admits_total (side : Side) (a b : Int) : side.Admits false a b ∨ side.Admits false b a := by
  cases side <;> simp only [Admits] <;> omega

theorem mem_bounds_of_last? {strict : Bool} {bound : Int}
    (h : side.last? checks strict = some bound) : (strict, bound) ∈ side.bounds checks := by
  obtain ⟨given, hmem, hgiven⟩ := List.mem_filterMap.mp (List.mem_of_getLast? h)
  split at hgiven
  · rename_i hstrict
    cases hgiven
    rwa [← hstrict]
  · cases hgiven

theorem exists_last?_of_mem {strict : Bool} {bound : Int} (h : (strict, bound) ∈ side.bounds checks) :
    ∃ last, side.last? checks strict = some last := by
  have hmem : bound ∈ (side.bounds checks).filterMap fun given =>
      if given.1 = strict then some given.2 else none :=
    List.mem_filterMap.mpr ⟨(strict, bound), h, if_pos rfl⟩
  exact Option.isSome_iff_exists.mp (List.getLast?_isSome.mpr (List.ne_nil_of_mem hmem))

theorem admits_start (side : Side) (strict : Bool) (bound : Int) :
    side.Admits strict bound (side.start strict bound) := by
  cases side <;> cases strict <;> simp [Admits, start, first]

/-- Of the last bounds of a side, one is the sharpest. -/
theorem exists_sharpest_last {strict : Bool} {bound : Int} (h : (strict, bound) ∈ side.bounds checks) :
    ∃ kind last, side.last? checks kind = some last
      ∧ ∀ strict bound, side.last? checks strict = some bound →
          side.Admits strict bound (side.start kind last) := by
  obtain ⟨own, hown⟩ := exists_last?_of_mem h
  cases hclosed : side.last? checks false with
  | none =>
    cases hstrict : side.last? checks true with
    | none => cases strict <;> simp_all
    | some a => exact ⟨true, a, hstrict, by simp [hclosed, hstrict, admits_start]⟩
  | some b =>
    cases hstrict : side.last? checks true with
    | none => exact ⟨false, b, hclosed, by simp [hclosed, hstrict, admits_start]⟩
    | some a =>
      -- Of the two last bounds the one that starts further inside is the sharper one.
      rcases side.admits_total (side.start true a) (side.start false b) with hle | hle
      · have ha := (side.admits_start true a).trans hle
        exact ⟨false, b, hclosed, by simp [hclosed, hstrict, admits_start, ha]⟩
      · have hb := (side.admits_start false b).trans hle
        exact ⟨true, a, hstrict, by simp [hclosed, hstrict, admits_start, hb]⟩

/-- On a side no bound is sharper than both the last strict bound and the last other one. -/
def KeepsSharpest (side : Side) (checks : List NumberCheck) : Prop :=
  ∀ given ∈ side.bounds checks, ∃ kind last, side.last? checks kind = some last
    ∧ side.Admits given.1 given.2 (side.start kind last)

/-- Where the sharpest bound is kept, what the last bounds let through is let through by all. -/
theorem KeepsSharpest.admits (h : side.KeepsSharpest checks)
    (hlast : ∀ strict bound, side.last? checks strict = some bound → side.Admits strict bound x) :
    ∀ given ∈ side.bounds checks, side.Admits given.1 given.2 x := by
  intro given hgiven
  obtain ⟨kind, last, hkind, hadmits⟩ := h given hgiven
  exact hadmits.trans ((admits_iff_start kind last).mp (hlast kind last hkind))

end Side

/-! ## What is written for all checks -/

namespace Dialect

variable {checks : List NumberCheck}

theorem get?_multipleOf_of_unscaled (dialect : Dialect) (unscaled : ∀ check ∈ checks, check.Unscaled) :
    Entries.get? (dialect.numberKeys checks) "multipleOf" = none := by
  have hnone : checks.filterMap (fun check => Entries.get? (dialect.checkKeys check) "multipleOf")
      = [] := by
    refine List.filterMap_eq_nil_iff.mpr fun check hcheck => ?_
    cases check with
    | min bound inclusive | max bound inclusive =>
      cases dialect <;> cases inclusive <;> simp [checkKeys, Entries.get?]
    | multipleOf factor => exact absurd rfl (unscaled _ hcheck factor)
    | int | finite => cases dialect <;> rfl
  rw [get?_numberKeys, hnone]
  rfl

/-- An integer is allowed just in case the last bounds of either kind let it through. -/
theorem allows_iff_last (whole : ∀ check ∈ checks, check.Whole)
    (unscaled : ∀ check ∈ checks, check.Unscaled) (x : Int) :
    types.Allows (types.numberKeys checks) x
      ↔ ∀ side strict bound, Side.last? side checks strict = some bound → side.Admits strict bound x := by
  have hmultiple : Fragment.AllowsMultiple (types.numberKeys checks) x := by
    intro factor hfactor
    rw [Fragment.number?, get?_multipleOf_of_unscaled types unscaled] at hfactor
    cases hfactor
  rw [Allows, and_iff_left hmultiple]
  exact forall_congr' fun side => Side.allows_types_iff whole x

end Dialect

namespace Side

variable {side : Side} {checks : List NumberCheck}

/-- If some integer is let through by the last bounds of both sides, and all that are so are let
through by all bounds of a side, then the side keeps its sharpest bound. -/
theorem keepsSharpest_of_forall {x : Int}
    (hx : ∀ (side : Side) strict bound, side.last? checks strict = some bound → side.Admits strict bound x)
    (h : ∀ y, (∀ (side : Side) strict bound, side.last? checks strict = some bound →
      side.Admits strict bound y) → ∀ given ∈ side.bounds checks, side.Admits given.1 given.2 y) :
    side.KeepsSharpest checks := by
  rintro ⟨strict, bound⟩ hgiven
  obtain ⟨kind, last, hlast, hsharpest⟩ := exists_sharpest_last hgiven
  refine ⟨kind, last, hlast, h _ ?_ (strict, bound) hgiven⟩
  -- The first integer after the sharpest of the last bounds is between these and `x`.
  have hbetween : side.Admits false (side.start kind last) x :=
    (admits_iff_start kind last).mp (hx side kind last hlast)
  intro other strict' bound' h'
  by_cases hother : other = side
  · subst hother
    exact hsharpest strict' bound' h'
  · have hadmits := hx other strict' bound' h'
    revert hadmits hbetween
    cases side <;> cases other <;> cases strict' <;> simp [Admits] at hother ⊢ <;> omega

end Side

/-! ## Lengths of strings -/

namespace StringCheck

/-- A length is not below the lower bound that is looked for exactly if it is below no lower bound. -/
theorem minLength?_le_iff (checks : List StringCheck) (length : Nat) :
    (∀ least, minLength? checks = some least → least ≤ length)
      ↔ ∀ least, .min least ∈ checks → least ≤ length := by
  unfold minLength?
  generalize hbounds : List.filterMap _ checks = bounds
  have hmem (least : Nat) : least ∈ bounds ↔ .min least ∈ checks := by
    rw [← hbounds, List.mem_filterMap]
    constructor
    · rintro ⟨check, hcheck, hleast⟩
      cases check <;> cases hleast
      exact hcheck
    · exact fun hcheck => ⟨_, hcheck, rfl⟩
  simp only [← hmem]
  cases hmax : bounds.max? with
  | none => simp [List.max?_eq_none_iff.mp hmax]
  | some greatest => simpa using List.max?_le_iff hmax

/-- A length is not above the upper bound that is looked for exactly if it is above no upper bound. -/
theorem le_maxLength?_iff (checks : List StringCheck) (length : Nat) :
    (∀ most, maxLength? checks = some most → length ≤ most)
      ↔ ∀ most, .max most ∈ checks → length ≤ most := by
  unfold maxLength?
  generalize hbounds : List.filterMap _ checks = bounds
  have hmem (most : Nat) : most ∈ bounds ↔ .max most ∈ checks := by
    rw [← hbounds, List.mem_filterMap]
    constructor
    · rintro ⟨check, hcheck, hmost⟩
      cases check <;> cases hmost
      exact hcheck
    · exact fun hcheck => ⟨_, hcheck, rfl⟩
  simp only [← hmem]
  cases hmin : bounds.min? with
  | none => simp [List.min?_eq_none_iff.mp hmin]
  | some least => simpa using List.le_min?_iff hmin

end StringCheck

/-! ## Checks and keys -/

namespace Dialect

/-- What is written for lower and upper bounds that are integers. An integer is allowed if the last
bounds of each kind let it through, so nothing that passes all checks is shut out. What passes the
checks is all that is allowed exactly if each side keeps its sharpest bound, or nothing is allowed. The
lengths that are written for a string are the ones that all its bounds let through. -/
theorem last_bounds_allow {checks : List NumberCheck} (whole : ∀ check ∈ checks, check.Whole)
    (unscaled : ∀ check ∈ checks, check.Unscaled) :
    (∀ x, types.Allows (types.numberKeys checks) x
        ↔ ∀ side strict bound, Side.last? side checks strict = some bound → side.Admits strict bound x)
      ∧ (∀ x, (∀ check ∈ checks, check.Passes x) → types.Allows (types.numberKeys checks) x)
      ∧ ((∀ x, types.Allows (types.numberKeys checks) x ↔ ∀ check ∈ checks, check.Passes x)
        ↔ (∀ side : Side, side.KeepsSharpest checks)
          ∨ ∀ x, ¬ types.Allows (types.numberKeys checks) x)
      ∧ ∀ (lengths : List StringCheck) (n : Nat),
        ((∀ least, StringCheck.minLength? lengths = some least → least ≤ n)
            ∧ ∀ most, StringCheck.maxLength? lengths = some most → n ≤ most)
          ↔ (∀ least, .min least ∈ lengths → least ≤ n) ∧ ∀ most, .max most ∈ lengths → n ≤ most := by
  have hlast := allows_iff_last whole unscaled
  have hpasses (x : Int) := Side.forall_passes_iff (x := x) whole unscaled
  have hsound (x : Int) (h : ∀ check ∈ checks, check.Passes x) :
      types.Allows (types.numberKeys checks) x := by
    rw [hlast]
    exact fun side strict bound hbound =>
      (hpasses x).mp h side (strict, bound) (Side.mem_bounds_of_last? hbound)
  refine ⟨hlast, hsound, ⟨fun h => ?_, ?_⟩, fun lengths n => and_congr
    (StringCheck.minLength?_le_iff lengths n) (StringCheck.le_maxLength?_iff lengths n)⟩
  · -- An allowed integer bounds the other side, so that the first one after a lost bound is allowed.
    by_cases hsome : ∃ x, types.Allows (types.numberKeys checks) x
    · obtain ⟨x, hx⟩ := hsome
      refine .inl fun side => Side.keepsSharpest_of_forall ((hlast x).mp hx) fun y hy => ?_
      exact (hpasses y).mp ((h y).mp ((hlast y).mpr hy)) side
    · exact .inr (not_exists.mp hsome)
  · rintro (hkeeps | hnone) x
    · refine ⟨fun hx => (hpasses x).mpr fun side => ?_, hsound x⟩
      exact (hkeeps side).admits ((hlast x).mp hx side)
    · exact ⟨fun hx => absurd hx (hnone x), hsound x⟩

/-- Two lower bounds, the sharper one first. The other one is written over it, and allows what does not
pass the first check. -/
theorem sharper_bound_overwritten :
    let checks : List NumberCheck := [.min (.ofInt 5) true, .min (.ofInt 0) true]
    (∀ check ∈ checks, check.Whole) ∧ (∀ check ∈ checks, check.Unscaled)
      ∧ types.numberKeys checks = [("minimum", .int 0)]
      ∧ types.Allows (types.numberKeys checks) 3
      ∧ ¬ (∀ check ∈ checks, check.Passes 3)
      ∧ ¬ Side.below.KeepsSharpest checks := by
  intro checks
  have hzero : (Binary64.ofInt 0).toInt? = some 0 := by decide +kernel
  have hfive : (Binary64.ofInt 5).toInt? = some 5 := by decide +kernel
  have hwhole : ∀ check ∈ checks, check.Whole := by
    intro check hcheck
    simp only [checks, List.mem_cons, List.not_mem_nil, or_false] at hcheck
    rcases hcheck with rfl | rfl
    · exact NumberCheck.whole_min hfive (by decide) true
    · exact NumberCheck.whole_min hzero (by decide) true
  have hunscaled : ∀ check ∈ checks, check.Unscaled := by
    intro check hcheck factor
    simp only [checks, List.mem_cons, List.not_mem_nil, or_false] at hcheck
    rcases hcheck with rfl | rfl <;> exact NumberCheck.noConfusion
  have hbelow : Side.below.bounds checks = [(false, 5), (false, 0)] := by
    simp [checks, Side.bounds, NumberCheck.whole?, NumberCheck.bound?, hzero, hfive]
  have habove : Side.above.bounds checks = [] := by
    simp [checks, Side.bounds, NumberCheck.whole?, NumberCheck.bound?]
  have hlast := (last_bounds_allow hwhole hunscaled).1
  have hallowed : types.Allows (types.numberKeys checks) 3 := by
    rw [hlast]
    intro side strict bound hbound
    cases side <;> cases strict <;> simp [Side.last?, hbelow, habove] at hbound
    subst hbound
    simp [Side.Admits]
  have hfails : ¬ ∀ check ∈ checks, check.Passes 3 := by
    intro h
    have hbound := (Side.forall_passes_iff hwhole hunscaled).mp h .below (false, 5) (by simp [hbelow])
    simp [Side.Admits] at hbound
  refine ⟨hwhole, hunscaled, ?_, hallowed, hfails, fun hkeeps => ?_⟩
  · simp [checks, numberKeys, checkKeys, Entries.extend, Entries.insert,
      numberValue_of_toInt? hzero (by decide)]
  · obtain ⟨kind, last, hkind, hadmits⟩ := hkeeps (false, 5) (by simp [hbelow])
    cases kind <;> simp [Side.last?, hbelow] at hkind
    subst hkind
    simp [Side.Admits, Side.start] at hadmits

end Dialect

end OpenApi
