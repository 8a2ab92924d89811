/-
# OpenApi.Proofs.Enumerations -- the values that an enumeration lets through

A literal, an enumeration and a native enumeration list the values that they accept. What is written
for them restricts a value twice: by `type`, and by `enum`, which has the listed values as members. A
value has to pass both, so that each of the two can take away from what the other one lets through.

`Fragment.accepts` reads the two keys as a validator does. Two things get lost that way. The type of a
nullable schema has null beside its own type, but `enum` does not list null. And a native enumeration of
numbers has the type `integer`, which a listed number with a fractional part is not of. In all other
cases exactly the listed values are let through, and null where the schema accepts it.
-/
import OpenApi.Proofs.Defaults
import OpenApi.Proofs.NumericBounds
import OpenApi.Proofs.Wrapping

namespace OpenApi

/-! ## Values as a validator sees them -/

namespace Json

/-- Whether a number has no fractional part. -/
def Number.isWhole (n : Number) : Bool := n.units % Binary64.one == 0

/-- Whether a value is a number with a fractional part. -/
def isFractional : Json → Bool
  | .number n => !n.isWhole
  | _ => false

/-- Whether a value is of the type with the given name. -/
def isOfType (type : String) : Json → Bool
  | .null => type == "null"
  | .bool _ => type == "boolean"
  | .number n => type == "number" || type == "integer" && n.isWhole
  | .string _ => type == "string"
  | .array _ => type == "array"
  | .object _ => type == "object"

mutual

/-- Equality of values: a number is its value, however it is written, and objects are compared
regardless of the order of their members. -/
def equals : Json → Json → Bool
  | .null, .null => true
  | .bool a, .bool b => a == b
  | .number a, .number b => a.units == b.units
  | .string a, .string b => a == b
  | .array xs, .array ys => equalsItems xs ys
  | .object xs, .object ys => xs.length == ys.length && equalsMembers xs ys
  | _, _ => false

/-- Whether two arrays have equal items in the same places. -/
def equalsItems : List Json → List Json → Bool
  | [], [] => true
  | x :: xs, y :: ys => equals x y && equalsItems xs ys
  | _, _ => false

/-- Whether every member of one object has an equal one under its key in the other. -/
def equalsMembers : List (String × Json) → List (String × Json) → Bool
  | [], _ => true
  | (key, x) :: xs, ys =>
    (match Entries.get? ys key with
      | some y => equals x y
      | none => false) && equalsMembers xs ys

end

/-- Equal values are of the same types. -/
theorem isOfType_of_equals {v w : Json} (h : v.equals w = true) (type : String) :
    v.isOfType type = w.isOfType type := by
  cases v with
  | number n =>
    cases w with
    | number m =>
      rw [equals, beq_iff_eq] at h
      rw [isOfType, isOfType, Number.isWhole, Number.isWhole, h]
    | _ => cases h
  | _ => cases w <;> first | rfl | cases h

theorem isFractional_of_equals {v w : Json} (h : v.equals w = true) :
    v.isFractional = w.isFractional := by
  cases v with
  | number n =>
    cases w with
    | number m =>
      rw [equals, beq_iff_eq] at h
      rw [isFractional, isFractional, Number.isWhole, Number.isWhole, h]
    | _ => cases h
  | _ => cases w <;> first | rfl | cases h

theorem equals_self_of_isFractional {v : Json} (h : v.isFractional = true) : v.equals v = true := by
  cases v with
  | number n => rw [equals, beq_self_eq_true]
  | _ => cases h

theorem eq_null_of_equals {w : Json} (h : null.equals w = true) : w = null := by
  cases w with
  | null => rfl
  | _ => cases h

theorem equals_null (v : Json) : v.equals null = v.isNull := by cases v <;> rfl

theorem isOfType_null (v : Json) : v.isOfType "null" = v.isNull := by cases v <;> rfl

theorem isNull_iff {v : Json} : v.isNull = true ↔ v = null := by cases v <;> simp [isNull]

end Json

/-! ## What a fragment lets through -/

namespace Fragment

/-- Whether a value is of a type that the fragment gives, if it gives any. -/
def acceptsType (fragment : Fragment) (value : Json) : Bool :=
  match Entries.get? fragment "type" with
  | none => true
  | some (.string type) => value.isOfType type
  | some (.array types) => types.any fun type => (type.string?.map value.isOfType).getD false
  | some _ => false

/-- Whether a value is one of those that the fragment lists, if it lists any. -/
def acceptsListed (fragment : Fragment) (value : Json) : Bool :=
  match Entries.get? fragment "enum" with
  | none => true
  | some (.array values) => values.any value.equals
  | some _ => false

/-- Whether a fragment lets a value through, by its type and by the values that it lists. -/
def accepts (fragment : Fragment) (value : Json) : Bool :=
  fragment.acceptsType value && fragment.acceptsListed value

theorem accepts_congr {fragment fragment' : Fragment}
    (type : Entries.get? fragment "type" = Entries.get? fragment' "type")
    (listed : Entries.get? fragment "enum" = Entries.get? fragment' "enum") (value : Json) :
    fragment.accepts value = fragment'.accepts value := by
  rw [accepts, acceptsType, acceptsListed, type, listed]
  rfl

/-- What is written besides a fragment is a default and a description. -/
theorem mem_keys_overlay {head keys : Fragment} {default : Option Json}
    (described : ∀ e ∈ keys, e.1 = "description") {key : String}
    (h : key ∈ Entries.keys (overlay (withDefault head default) keys)) :
    key ∈ Entries.keys head ∨ key = "default" ∨ key = "description" := by
  obtain ⟨e, he, rfl⟩ := List.mem_map.mp h
  rcases Entries.mem_extend (List.mem_filter.mp he).1 with he | he
  · exact Or.inr (Or.inr (described e he))
  · rcases mem_withDefault he with hdefault | he
    · exact Or.inr (Or.inl hdefault)
    · exact Or.inl (List.mem_map_of_mem he)

/-- What is written besides the type and the listed values makes no difference. -/
theorem accepts_overlay {head keys : Fragment} (distinct : (Entries.keys head).Nodup)
    (nonnull : ∀ e ∈ head, e.2.isNull = false) (default : Option Json)
    (described : ∀ e ∈ keys, e.1 = "description") (value : Json) :
    (overlay (withDefault head default) keys).accepts value = head.accepts value := by
  have kept {key : String} (hdefault : key ≠ "default") (hdescription : key ≠ "description") :
      Entries.get? (overlay (withDefault head default) keys) key = Entries.get? head key := by
    have hhead : Entries.get? (withDefault head default) key = Entries.get? head key :=
      get?_withDefault_of_ne default hdefault
    have hkey : key ∉ Entries.keys keys := by
      intro hmem
      obtain ⟨e, he, rfl⟩ := List.mem_map.mp hmem
      exact hdescription (described e he)
    rw [get?_overlay_eq (nodup_keys_withDefault default distinct) hkey, hhead]
    intro found hfound
    rw [hhead] at hfound
    exact nonnull _ (Entries.mem_of_get? hfound)
  exact accepts_congr (kept (by decide) (by decide)) (kept (by decide) (by decide)) value

/-- The type and the listed values that are written for an enumeration. -/
def listing (nullable : Bool) (type : String) (values : List Json) : Fragment :=
  [("type", if nullable then .array [.string type, .string "null"] else .string type),
    ("enum", .array values)]

/-- Of the values that are equal to a listed one, those are let through that are of the type. Null is
among the types to no effect. -/
theorem accepts_listing_iff {type : String} {values : List Json} (nonnull : .null ∉ values)
    (nullable : Bool) (value : Json) :
    (listing nullable type values).accepts value = true
      ↔ ∃ listed ∈ values, value.equals listed = true ∧ listed.isOfType type = true := by
  have htype : (listing nullable type values).acceptsType value
      = (value.isOfType type || nullable && value.isOfType "null") := by
    cases nullable <;> simp [acceptsType, listing, Entries.get?, Json.string?]
  have hlisted : (listing nullable type values).acceptsListed value = values.any value.equals := by
    simp [acceptsListed, listing, Entries.get?]
  -- A value that equals a listed one is of the same types, and none of these is null.
  rw [accepts, htype, hlisted, Bool.and_eq_true, List.any_eq_true]
  constructor
  · rintro ⟨htyped, listed, hmem, hequals⟩
    have hnull : value.isOfType "null" = false := by
      rw [Json.isOfType_of_equals hequals, Json.isOfType_null, Bool.eq_false_iff]
      exact fun h => nonnull (Json.isNull_iff.mp h ▸ hmem)
    rw [hnull, Bool.and_false, Bool.or_false, Json.isOfType_of_equals hequals] at htyped
    exact ⟨listed, hmem, hequals, htyped⟩
  · rintro ⟨listed, hmem, hequals, htyped⟩
    rw [Json.isOfType_of_equals hequals, htyped, Bool.true_or]
    exact ⟨rfl, listed, hmem, hequals⟩

/-- A fragment that shuts out fractional values if they are native lets exactly the given values through,
and null where it is wanted, if null is given wherever it is wanted and no native value is fractional. -/
theorem accepts_exactly_iff {fragment : Fragment} {values : List Json} {native nullable : Bool}
    (accepts : ∀ value, fragment.accepts value = true
      ↔ ∃ listed ∈ values, value.equals listed = true ∧ (native = true → listed.isFractional = false)) :
    (∀ value, fragment.accepts value = true
        ↔ (∃ listed ∈ values, value.equals listed = true) ∨ nullable = true ∧ value.isNull = true)
      ↔ (nullable = true → .null ∈ values)
        ∧ (native = true → ∀ listed ∈ values, listed.isFractional = false) := by
  simp only [accepts]
  constructor
  · intro hexact
    refine ⟨fun hnullable => ?_, fun hnative listed hlisted => ?_⟩
    · obtain ⟨listed, hmem, hequals, -⟩ := (hexact .null).mpr (Or.inr ⟨hnullable, rfl⟩)
      rwa [← Json.eq_null_of_equals hequals]
    · refine Bool.eq_false_iff.mpr fun hfractional => ?_
      have hself := Json.equals_self_of_isFractional hfractional
      obtain ⟨other, -, hequals, hother⟩ := (hexact listed).mpr (Or.inl ⟨listed, hlisted, hself⟩)
      rw [Json.isFractional_of_equals hequals, hother hnative] at hfractional
      cases hfractional
  · rintro ⟨hnull, hwhole⟩ value
    constructor
    · rintro ⟨listed, hmem, hequals, -⟩
      exact Or.inl ⟨listed, hmem, hequals⟩
    · rintro (⟨listed, hmem, hequals⟩ | ⟨hnullable, hvalue⟩)
      · exact ⟨listed, hmem, hequals, fun hnative => hwhole hnative listed hmem⟩
      · refine ⟨.null, hnull hnullable, ?_, fun _ => rfl⟩
        rw [Json.equals_null]
        exact hvalue

/-- A fragment of a type and listed values lets through the given values. If they are native, those with
a fractional part are shut out. -/
structure Restricts (head : Fragment) (values : List Json) (native : Bool) : Prop where
  keys : ∀ key ∈ Entries.keys head, key ∈ ["type", "enum"]
  distinct : (Entries.keys head).Nodup
  nonnull : ∀ e ∈ head, e.2.isNull = false
  accepts : ∀ value, head.accepts value = true
    ↔ ∃ listed ∈ values, value.equals listed = true ∧ (native = true → listed.isFractional = false)

theorem restricts_null : Restricts [("type", .string "null")] [.null] false where
  keys := by simp [Entries.keys]
  distinct := by simp [Entries.keys]
  nonnull := by simp [Json.isNull]
  accepts := by
    intro value
    simp [Fragment.accepts, acceptsType, acceptsListed, Entries.get?, Json.isOfType_null,
      Json.equals_null]

theorem restricts_listing {type : String} {values : List Json} {native : Bool}
    (nonnull : .null ∉ values)
    (typed : ∀ value ∈ values,
      value.isOfType type = true ↔ (native = true → value.isFractional = false))
    (nullable : Bool) : Restricts (listing nullable type values) values native where
  keys := by simp [Entries.keys, listing]
  distinct := by simp [Entries.keys, listing]
  nonnull := by cases nullable <;> simp [listing, Json.isNull]
  accepts := by
    intro value
    rw [accepts_listing_iff nonnull]
    refine exists_congr fun listed => and_congr_right fun hmem => ?_
    rw [typed listed hmem]

end Fragment

/-! ## Schemas that list values -/

namespace Schema

/-- The values that a schema lists under its wrappers, if it lists any. -/
def listed? (s : Schema) : Option (List Json) :=
  match s.core.kind with
  | .literal value => some [value]
  | .enumeration values => some (values.map .string)
  | .nativeEnum members => some (Entries.values members)
  | _ => none

/-- Whether the values are those of a native enumeration. -/
def isNative (s : Schema) : Bool :=
  match s.core.kind with
  | .nativeEnum _ => true
  | _ => false

/-- What a schema that lists values is settled to: null, a type with the listed values, or nothing that
can be compiled. Of the listed values those are of the type that are not both native and fractional. -/
inductive Enumerates (s : Schema) (values : List Json) : Shape → Prop
  | null : values = [.null] → s.isNative = false → Enumerates s values .null
  | typed {type : String} : .null ∉ values →
      (∀ value ∈ values,
        value.isOfType type = true ↔ (s.isNative = true → value.isFractional = false)) →
      Enumerates s values (.scalar type [] [("enum", .array values)])
  | invalid {problem : Problem} : Enumerates s values (.invalid problem)

theorem enumerates_shape {s : Schema} {values : List Json} (h : s.listed? = some values) :
    Enumerates s values (s.shape false) := by
  -- Wrappers change neither the shape nor what is listed, so the innermost node is the whole schema.
  rw [← shape_core]
  have hnative : s.isNative = match s.core.kind with | .nativeEnum _ => true | _ => false := rfl
  rw [listed?] at h
  revert h hnative
  generalize s.core = core
  obtain ⟨kind, description, label⟩ := core
  intro h hnative
  cases kind with
  | literal value =>
    cases h
    cases value with
    | null => exact .null rfl hnative
    | array _ | object _ => exact .invalid
    | string _ | number _ | bool _ =>
      refine .typed (by simp) ?_
      simp [Json.isOfType, hnative, Schema.kind]
  | enumeration texts =>
    cases h
    refine .typed (by simp) ?_
    simp [Json.isOfType, hnative, Schema.kind]
  | nativeEnum members =>
    cases h
    rw [shape, nativeEnumShape]
    split
    · rename_i hstrings
      rw [List.all_eq_true] at hstrings
      refine .typed (fun h => Bool.noConfusion (hstrings _ h)) fun value hvalue => ?_
      have hstring := hstrings value hvalue
      cases value with
      | string text => simp [Json.isOfType, Json.isFractional]
      | _ => cases hstring
    · split
      · rename_i hnumbers
        rw [List.all_eq_true] at hnumbers
        refine .typed (fun h => Bool.noConfusion (hnumbers _ h)) fun value hvalue => ?_
        have hnumber := hnumbers value hvalue
        cases value with
        | number n => simp [Json.isOfType, Json.isFractional, hnative, Schema.kind]
        | _ => cases hnumber
      · exact .invalid
  | _ => cases h

theorem typeOverride?_of_fieldless {s : Schema}
    (fieldless : ∀ own, s.ownMetadata? = some own → own.fields = []) : s.typeOverride? = none := by
  refine Entries.get?_eq_none_iff.mpr fun h => ?_
  obtain ⟨e, he, htype⟩ := List.mem_map.mp h
  rw [described_of_fieldless fieldless e he] at htype
  exact absurd htype (by decide)

/-- What is written for a schema that lists values, a default apart. -/
theorem Enumerates.restricts {s : Schema} {values : List Json} {shape : Shape}
    (h : Enumerates s values shape) {nullable : Bool} {default : Option Json}
    {store after : Store Fragment} {body : Fragment}
    (hbody : shape.compile .types nullable default store = .ok (body, after)) :
    ∃ head default', body = Fragment.withDefault head default' ∧ head.Restricts values s.isNative := by
  cases h with
  | null hvalues hnative =>
    cases hbody
    rw [hvalues, hnative]
    exact ⟨_, none, rfl, Fragment.restricts_null⟩
  | typed hnonnull htyped =>
    cases hbody
    refine ⟨_, default, ?_, Fragment.restricts_listing hnonnull htyped nullable⟩
    cases nullable <;> rfl
  | invalid => cases hbody

/-- What is written for a schema that lists values, under any wrappers. The listed values are let through,
except for the fractional ones of a native enumeration, and nothing else is. So these are exactly the
values that the schema lists, and null where the schema accepts it, if and only if null is listed wherever
it is accepted and a native enumeration lists nothing fractional. -/
theorem enumerated_accepts_iff {s : Schema} {values : List Json} (lists : s.listed? = some values)
    (unnamed : s.refId? = none) (fieldless : ∀ own, s.ownMetadata? = some own → own.fields = [])
    {reply : Reply} {store after : Store Fragment} {answer : Fragment}
    (h : s.site.compile .types reply store = .ok (answer, after)) :
    (∀ key ∈ Entries.keys answer, key ∈ ["type", "enum", "default", "description"])
      ∧ (∀ value, answer.accepts value = true
        ↔ ∃ listed ∈ values, value.equals listed = true
          ∧ (s.isNative = true → listed.isFractional = false))
      ∧ ((∀ value, answer.accepts value = true
          ↔ (∃ listed ∈ values, value.equals listed = true)
            ∨ s.isNullable = true ∧ value.isNull = true)
        ↔ (s.isNullable = true → .null ∈ values)
          ∧ (s.isNative = true → ∀ listed ∈ values, listed.isFractional = false)) := by
  have hdescribed := described_of_fieldless fieldless
  obtain ⟨body, hbody, rfl⟩ := answer_of_shape unnamed (typeOverride?_of_fieldless fieldless) h
  obtain ⟨head, default, rfl, hhead⟩ := (enumerates_shape lists).restricts hbody
  have haccepts (value : Json) :
      (Fragment.overlay (Fragment.withDefault head default) s.documentKeys).accepts value = true
        ↔ ∃ listed ∈ values, value.equals listed = true
          ∧ (s.isNative = true → listed.isFractional = false) := by
    rw [Fragment.accepts_overlay hhead.distinct hhead.nonnull default hdescribed]
    exact hhead.accepts value
  refine ⟨fun key hkey => ?_, haccepts, Fragment.accepts_exactly_iff haccepts⟩
  rcases Fragment.mem_keys_overlay hdescribed hkey with hkey | rfl | rfl
  · have hrestricting := hhead.keys key hkey
    simp only [List.mem_cons] at hrestricting ⊢
    tauto
  · simp
  · simp

/-- An enumeration of one text that accepts null. Null is a type of it, and is not let through. -/
theorem nullable_enumeration_excludes_null :
    let s := (ofKind (.enumeration ["a"])).nullable
    let answer : Fragment := [("type", .array [.string "string", .string "null"]),
      ("enum", .array [.string "a"])]
    s.listed? = some [.string "a"] ∧ s.refId? = none
      ∧ (∀ own, s.ownMetadata? = some own → own.fields = [])
      ∧ s.site.compile .types .reference {} = .ok (answer, {})
      ∧ s.isNullable = true ∧ answer.accepts .null = false
      ∧ ¬ ∀ value, answer.accepts value = true
        ↔ (∃ listed ∈ [Json.string "a"], value.equals listed = true)
          ∨ s.isNullable = true ∧ value.isNull = true := by
  intro s answer
  have hcompile : s.site.compile .types .reference {} = .ok (answer, {}) := rfl
  have hfieldless : ∀ own, s.ownMetadata? = some own → own.fields = [] := fun own h => by cases h
  have hlisted : s.listed? = some [.string "a"] := rfl
  obtain ⟨-, haccepts, hexact⟩ := enumerated_accepts_iff hlisted rfl hfieldless hcompile
  refine ⟨hlisted, rfl, hfieldless, hcompile, rfl, ?_, fun h => ?_⟩
  · refine Bool.eq_false_iff.mpr fun h => ?_
    obtain ⟨listed, hmem, hequals, -⟩ := (haccepts .null).mp h
    rw [Json.eq_null_of_equals hequals] at hmem
    simp at hmem
  · have hnull := (hexact.mp h).1 rfl
    simp at hnull

end Schema

end OpenApi
