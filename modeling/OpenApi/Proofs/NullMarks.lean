/-
# OpenApi.Proofs.NullMarks -- fragments that say that null is accepted

A dialect has its own way to say that a type accepts null, and besides that a union accepts null
if one of its alternatives does, and a conjunction if all of its parts do. `NullMarked` is that
reading of a fragment, with no regard to what the fragment was compiled from.

Only six keys matter to it (`markKeys`), so most of what is written around a type or around
alternatives can be looked past. What is proved here is what the fragments that shapes write come
to: `Fragment.Decides` says that a fragment marks null just in case a condition holds, and that
none of the six keys has the value null, which would be left out later.
-/
import Mathlib.Data.List.Forall2
import OpenApi.Proofs.Computation
import OpenApi.Proofs.Supplied

namespace OpenApi

/-! ## The marks -/

/-- The keys that say whether null is accepted. -/
def markKeys : List String := ["type", "nullable", "anyOf", "oneOf", "allOf", "$ref"]

/-- The keys of a fragment mark null by themselves: by a flag, or by a type that is null, lists
null, or is not given at all, so that any value is meant. -/
def Dialect.MarksType : Dialect → Fragment → Prop
  | flags, members => Entries.get? members "nullable" = some (.bool true)
  | types, members =>
    Entries.get? members "type" = some (.string "null")
      ∨ (∃ names, Entries.get? members "type" = some (.array names) ∧ Json.string "null" ∈ names)
      ∨ ∀ key ∈ ["type", "anyOf", "oneOf", "allOf", "$ref"], Entries.get? members key = none

/-- A fragment says that null is accepted. -/
inductive NullMarked (dialect : Dialect) : Json → Prop
  | type {members : Fragment} : dialect.MarksType members → NullMarked dialect (.object members)
  | anyOf {members : Fragment} {options : List Json} {option : Json} :
      Entries.get? members "anyOf" = some (.array options) → option ∈ options →
      NullMarked dialect option → NullMarked dialect (.object members)
  | oneOf {members : Fragment} {options : List Json} {option : Json} :
      Entries.get? members "oneOf" = some (.array options) → option ∈ options →
      NullMarked dialect option → NullMarked dialect (.object members)
  | allOf {members : Fragment} {parts : List Json} :
      Entries.get? members "allOf" = some (.array parts) →
      (∀ part ∈ parts, NullMarked dialect part) → NullMarked dialect (.object members)

variable {dialect : Dialect}

theorem nullMarked_iff {members : Fragment} :
    NullMarked dialect (.object members) ↔
      dialect.MarksType members
        ∨ (∃ options, Entries.get? members "anyOf" = some (.array options)
          ∧ ∃ option ∈ options, NullMarked dialect option)
        ∨ (∃ options, Entries.get? members "oneOf" = some (.array options)
          ∧ ∃ option ∈ options, NullMarked dialect option)
        ∨ ∃ parts, Entries.get? members "allOf" = some (.array parts)
          ∧ ∀ part ∈ parts, NullMarked dialect part := by
  constructor
  · intro h
    cases h with
    | type h => exact Or.inl h
    | anyOf hget hmem h => exact Or.inr (Or.inl ⟨_, hget, _, hmem, h⟩)
    | oneOf hget hmem h => exact Or.inr (Or.inr (Or.inl ⟨_, hget, _, hmem, h⟩))
    | allOf hget h => exact Or.inr (Or.inr (Or.inr ⟨_, hget, h⟩))
  · rintro (h | ⟨_, hget, _, hmem, h⟩ | ⟨_, hget, _, hmem, h⟩ | ⟨_, hget, h⟩)
    · exact .type h
    · exact .anyOf hget hmem h
    · exact .oneOf hget hmem h
    · exact .allOf hget h

theorem nullMarked_nullFragment : NullMarked dialect (.object dialect.nullFragment) := by
  apply NullMarked.type
  cases dialect <;> simp [Dialect.MarksType, Dialect.nullFragment, Entries.get?]

theorem nullMarked_anyOf (options : List Json) :
    NullMarked dialect (.object [("anyOf", .array options)])
      ↔ ∃ option ∈ options, NullMarked dialect option := by
  cases dialect <;> simp [nullMarked_iff, Dialect.MarksType, Entries.get?]

theorem nullMarked_oneOf (options : List Json) :
    NullMarked dialect (.object [("oneOf", .array options)])
      ↔ ∃ option ∈ options, NullMarked dialect option := by
  cases dialect <;> simp [nullMarked_iff, Dialect.MarksType, Entries.get?]

theorem nullMarked_allOf (parts : List Json) :
    NullMarked dialect (.object [("allOf", .array parts)])
      ↔ ∀ part ∈ parts, NullMarked dialect part := by
  cases dialect <;> simp [nullMarked_iff, Dialect.MarksType, Entries.get?]

theorem nullMarked_typeKeys {type : String} (h : type ≠ "null") (nullable : Bool) :
    NullMarked dialect (.object (dialect.typeKeys (some (.string type)) nullable))
      ↔ nullable = true := by
  cases dialect <;> cases nullable <;>
    simp [nullMarked_iff, Dialect.MarksType, Dialect.typeKeys, Entries.insertSome, Entries.insert,
      Entries.get?, h]

theorem nullMarked_anything : NullMarked dialect (.object (dialect.typeKeys none true)) := by
  apply NullMarked.type
  cases dialect <;>
    simp [Dialect.MarksType, Dialect.typeKeys, Entries.insertSome, Entries.get?]

/-- What equals an object with a single member has that member, up to equality. -/
theorem Json.same_single {members : Fragment} {key : String} {expected : Json}
    (h : (Json.object members).same (.object [(key, expected)]) = true) :
    ∃ found, members = [(key, found)] ∧ found.same expected = true := by
  obtain ⟨hlength, hsame⟩ := Bool.and_eq_true_iff.mp h
  match members, hlength, hsame with
  | [(k, found)], _, hsame =>
    by_cases hk : key = k
    · subst hk
      exact ⟨found, rfl, by simpa [Json.sameMembers, Entries.get?] using hsame⟩
    · simp [Json.sameMembers, Entries.get?, hk] at hsame

/-- What equals the fragment that stands for null marks null. -/
theorem nullMarked_of_same {value : Json}
    (h : value.same (.object dialect.nullFragment) = true) : NullMarked dialect value := by
  cases value with
  | object members =>
    apply NullMarked.type
    cases dialect with
    | flags =>
      obtain ⟨found, rfl, hfound⟩ := Json.same_single h
      cases found <;> simp_all [Json.same, Dialect.MarksType, Entries.get?]
    | types =>
      obtain ⟨found, rfl, hfound⟩ := Json.same_single h
      cases found <;> simp_all [Json.same, Dialect.MarksType, Entries.get?]
  | _ => cases h

/-! ## Keys that do not matter -/

/-- Two fragments have the same values under the keys that matter. -/
def Fragment.SameMarks (fragment fragment' : Fragment) : Prop :=
  ∀ key ∈ markKeys, Entries.get? fragment key = Entries.get? fragment' key

namespace Fragment.SameMarks

variable {fragment fragment' fragment'' : Fragment}

theorem trans (h : fragment.SameMarks fragment') (h' : fragment'.SameMarks fragment'') :
    fragment.SameMarks fragment'' := fun key hkey => (h key hkey).trans (h' key hkey)

theorem nullMarked (h : fragment.SameMarks fragment') :
    NullMarked dialect (.object fragment) ↔ NullMarked dialect (.object fragment') := by
  have htype := h "type" (by decide)
  have hnullable := h "nullable" (by decide)
  have hanyOf := h "anyOf" (by decide)
  have honeOf := h "oneOf" (by decide)
  have hallOf := h "allOf" (by decide)
  have href := h "$ref" (by decide)
  have hmarks : dialect.MarksType fragment ↔ dialect.MarksType fragment' := by
    cases dialect <;>
      simp [Dialect.MarksType, htype, hnullable, hanyOf, honeOf, hallOf, href]
  rw [nullMarked_iff, nullMarked_iff, hmarks, hanyOf, honeOf, hallOf]

theorem insert (fragment : Fragment) {key : String} (h : key ∉ markKeys) (value : Json) :
    SameMarks (Entries.insert fragment key value) fragment := by
  intro other hother
  apply Entries.get?_insert_of_ne
  rintro rfl
  exact h hother

theorem insertSome (fragment : Fragment) {key : String} (h : key ∉ markKeys)
    (value : Option Json) : SameMarks (Entries.insertSome fragment key value) fragment := by
  cases value with
  | none => exact fun _ _ => rfl
  | some v => exact insert fragment h v

theorem extend (fragment : Fragment) {later : Fragment} (h : ∀ e ∈ later, e.1 ∉ markKeys) :
    SameMarks (Entries.extend fragment later) fragment := by
  induction later generalizing fragment with
  | nil => exact fun _ _ => rfl
  | cons first rest ih =>
    have hrest := ih (Entries.insert fragment first.1 first.2) fun e he =>
      h e (List.mem_cons_of_mem _ he)
    exact hrest.trans (insert fragment (h first List.mem_cons_self) first.2)

theorem withDefault (fragment : Fragment) (default : Option Json) :
    SameMarks (Fragment.withDefault fragment default) fragment := by
  cases default with
  | none => exact fun _ _ => rfl
  | some value =>
    unfold Fragment.withDefault
    dsimp only
    split
    · exact fun _ _ => rfl
    · exact insert fragment (by decide) value

end Fragment.SameMarks

/-! ## Fragments that decide -/

/-- No key that matters has the value null. -/
def Fragment.Clear (fragment : Fragment) : Prop :=
  ∀ key ∈ markKeys, Entries.get? fragment key ≠ some .null

theorem Fragment.Clear.of_sameMarks {fragment fragment' : Fragment} (h : fragment.Clear)
    (hsame : fragment'.SameMarks fragment) : fragment'.Clear := by
  intro key hkey
  rw [hsame key hkey]
  exact h key hkey

theorem Fragment.clear_single {key : String} {value : Json} (hvalue : value ≠ .null) :
    Fragment.Clear [(key, value)] := by
  intro other _
  by_cases hkey : key = other <;> simp [Entries.get?, hkey, hvalue]

/-- Document keys that do not matter leave those that do as they were. -/
theorem Fragment.Clear.sameMarks_overlay {fragment keys : Fragment} (h : fragment.Clear)
    (hkeys : ∀ e ∈ keys, e.1 ∉ markKeys) : (Fragment.overlay fragment keys).SameMarks fragment := by
  have hextended := SameMarks.extend fragment hkeys
  refine SameMarks.trans ?_ hextended
  -- Leaving null values out changes no look-up that finds another value, or finds none.
  intro key hkey
  cases hget : Entries.get? (Entries.extend fragment keys) key with
  | none =>
    rw [Entries.get?_eq_none_iff] at hget ⊢
    exact fun hmem => hget (((List.filter_sublist).map _).subset hmem)
  | some value =>
    apply Entries.get?_filter hget
    have hclear := h.of_sameMarks hextended key hkey
    rw [hget] at hclear
    cases value <;> simp_all [Json.isNull]

/-- A fragment marks null just in case a condition holds, and goes on doing so when its null
values are left out. -/
structure Fragment.Decides (dialect : Dialect) (accepted : Prop) (fragment : Fragment) : Prop where
  clear : fragment.Clear
  marked : NullMarked dialect (.object fragment) ↔ accepted

namespace Fragment.Decides

variable {accepted : Prop} {fragment fragment' : Fragment}

theorem of_sameMarks (h : fragment.Decides dialect accepted) (hsame : fragment'.SameMarks fragment) :
    fragment'.Decides dialect accepted :=
  ⟨h.clear.of_sameMarks hsame, hsame.nullMarked.trans h.marked⟩

theorem congr {accepted' : Prop} (h : fragment.Decides dialect accepted)
    (hiff : accepted ↔ accepted') : fragment.Decides dialect accepted' :=
  ⟨h.clear, h.marked.trans hiff⟩

theorem withDefault (h : fragment.Decides dialect accepted) (default : Option Json) :
    (Fragment.withDefault fragment default).Decides dialect accepted :=
  h.of_sameMarks (.withDefault fragment default)

theorem overlay (h : fragment.Decides dialect accepted) {keys : Fragment}
    (hkeys : ∀ e ∈ keys, e.1 ∉ markKeys) :
    (Fragment.overlay fragment keys).Decides dialect accepted :=
  h.of_sameMarks (h.clear.sameMarks_overlay hkeys)

/-- A singleton decides what its mark comes to. -/
theorem single {key : String} {value : Json} (hvalue : value ≠ .null)
    (h : NullMarked dialect (.object [(key, value)]) ↔ accepted) :
    Fragment.Decides dialect accepted [(key, value)] := ⟨clear_single hvalue, h⟩

end Fragment.Decides

section Types

variable (nullable : Bool)

theorem Dialect.clear_typeKeys {type : Option Json} (h : type ≠ some .null) :
    Fragment.Clear (dialect.typeKeys type nullable) := by
  have hmem : ∀ e ∈ dialect.typeKeys type nullable, e.2 ≠ .null := by
    cases dialect <;> cases type <;> cases nullable <;>
      simp_all [typeKeys, Entries.insertSome, Entries.insert]
  exact fun key _ hget => hmem _ (Entries.mem_of_get? hget) rfl

theorem Dialect.decides_typeKeys {type : String} (h : type ≠ "null") :
    Fragment.Decides dialect (nullable = true) (dialect.typeKeys (some (.string type)) nullable) :=
  ⟨clear_typeKeys nullable (by simp), nullMarked_typeKeys h nullable⟩

theorem Dialect.decides_anything :
    Fragment.Decides dialect True (dialect.typeKeys none true) :=
  ⟨clear_typeKeys true (by simp), iff_of_true nullMarked_anything trivial⟩

theorem Dialect.decides_nullFragment : Fragment.Decides dialect True dialect.nullFragment := by
  have hmarked : NullMarked dialect (.object dialect.nullFragment) ↔ True :=
    iff_of_true nullMarked_nullFragment trivial
  cases dialect <;> exact .single (by simp) hmarked

theorem Dialect.not_mem_markKeys_of_numberKeys {checks : List NumberCheck} {e : String × Json}
    (h : e ∈ dialect.numberKeys checks) : e.1 ∉ markKeys := by
  have hcheck (check : NumberCheck) : ∀ e ∈ dialect.checkKeys check, e.1 ∉ markKeys := by
    cases dialect <;> cases check <;> simp [checkKeys, markKeys] <;>
      rename_i inclusive <;> cases inclusive <;> simp
  have hfold : ∀ keys : Fragment, (∀ e ∈ keys, e.1 ∉ markKeys) →
      ∀ e ∈ checks.foldl (fun keys check => Entries.extend keys (dialect.checkKeys check)) keys,
        e.1 ∉ markKeys := by
    clear h
    induction checks with
    | nil => exact fun _ hkeys => hkeys
    | cons check rest ih =>
      intro keys hkeys
      apply ih
      intro e he
      exact (Entries.mem_extend he).elim (hcheck check e) (hkeys e)
  exact hfold [] (fun _ he => absurd he List.not_mem_nil) e h

end Types

namespace Shape

variable (nullable : Bool) (default : Option Json)

theorem ne_null_of_mem_typeNames {type : String} (h : type ∈ typeNames) : type ≠ "null" := by
  rintro rfl
  revert h
  decide

/-- Checks, further keys and a default do not matter beside a type. -/
theorem sameMarks_scalarFragment (type : String) (checks : List NumberCheck) {keys : Fragment}
    (hkeys : ∀ e ∈ keys, e.1 ∈ detailKeys) :
    (scalarFragment dialect nullable default type checks keys).SameMarks
      (dialect.typeKeys (some (.string type)) nullable) := by
  have hdetail : ∀ key ∈ detailKeys, key ∉ markKeys := by decide
  have hnumber : ∀ e ∈ dialect.numberKeys checks, e.1 ∉ markKeys := fun _ he =>
    Dialect.not_mem_markKeys_of_numberKeys he
  have hchecked := Fragment.SameMarks.extend (dialect.typeKeys (some (.string type)) nullable) hnumber
  have hdetailed := Fragment.SameMarks.extend
    (Entries.extend (dialect.typeKeys (some (.string type)) nullable) (dialect.numberKeys checks))
    fun e he => hdetail _ (hkeys e he)
  exact (Fragment.SameMarks.withDefault _ default).trans (hdetailed.trans hchecked)

theorem sameMarks_objectFragment (properties : Fragment) (required : List String)
    (additional : Option Json) :
    (objectFragment dialect nullable default properties required additional).SameMarks
      (dialect.typeKeys (some (.string "object")) nullable) := by
  have htyped := Fragment.SameMarks.withDefault
    (dialect.typeKeys (some (.string "object")) nullable) default
  have hshaped := (Fragment.SameMarks.insert _ (by decide : "properties" ∉ markKeys)
    (.object properties)).trans htyped
  unfold objectFragment
  dsimp only
  refine (Fragment.SameMarks.insertSome _ (by decide) additional).trans ?_
  split
  · exact hshaped
  · exact (Fragment.SameMarks.insert _ (by decide) _).trans hshaped

theorem sameMarks_arrayFragment (items : Json) (least most : Option Nat) :
    (arrayFragment dialect nullable items least most).SameMarks
      (dialect.typeKeys (some (.string "array")) nullable) := by
  have hshaped := Fragment.SameMarks.insert (dialect.typeKeys (some (.string "array")) nullable)
    (by decide : "items" ∉ markKeys) items
  have hleast := (Fragment.SameMarks.insertSome _ (by decide : "minItems" ∉ markKeys)
    (least.map .nat)).trans hshaped
  exact (Fragment.SameMarks.insertSome _ (by decide) (most.map .nat)).trans hleast

theorem sameMarks_dictionaryFragment (value : Json) :
    (dictionaryFragment dialect nullable value).SameMarks
      (dialect.typeKeys (some (.string "object")) nullable) :=
  .insert _ (by decide) value

theorem decides_scalarFragment {type : String} (htype : type ∈ typeNames)
    (checks : List NumberCheck) {keys : Fragment} (hkeys : ∀ e ∈ keys, e.1 ∈ detailKeys) :
    (scalarFragment dialect nullable default type checks keys).Decides dialect (nullable = true) :=
  .of_sameMarks (Dialect.decides_typeKeys nullable (ne_null_of_mem_typeNames htype))
    (sameMarks_scalarFragment nullable default type checks hkeys)

theorem decides_objectFragment (properties : Fragment) (required : List String)
    (additional : Option Json) :
    (objectFragment dialect nullable default properties required additional).Decides dialect
      (nullable = true) :=
  .of_sameMarks (Dialect.decides_typeKeys nullable (by decide))
    (sameMarks_objectFragment nullable default properties required additional)

theorem decides_arrayFragment (items : Json) (least most : Option Nat) :
    (arrayFragment dialect nullable items least most).Decides dialect (nullable = true) :=
  .of_sameMarks (Dialect.decides_typeKeys nullable (by decide))
    (sameMarks_arrayFragment nullable items least most)

theorem decides_dictionaryFragment (value : Json) :
    (dictionaryFragment dialect nullable value).Decides dialect (nullable = true) :=
  .of_sameMarks (Dialect.decides_typeKeys nullable (by decide))
    (sameMarks_dictionaryFragment nullable value)

/-- Alternatives mark null just in case it is accepted, if none of them does where it is not. -/
theorem decides_anyOfFragment {options : List Json}
    (h : ∀ option ∈ options, NullMarked dialect option → nullable = true) :
    (anyOfFragment dialect nullable options).Decides dialect (nullable = true) := by
  refine .single (by simp) ((nullMarked_anyOf _).trans ⟨?_, ?_⟩)
  · rintro ⟨option, hoption, hmarked⟩
    unfold Dialect.withNull at hoption
    split at hoption
    · rename_i hmissing
      exact (Bool.and_eq_true_iff.mp hmissing).1
    · exact h option hoption hmarked
  · intro hnullable
    by_cases hamong : (Json.object dialect.nullFragment).isAmong options = true
    · -- Null is listed already, and the fragment that stands for it there is marked.
      obtain ⟨option, hoption, hsame⟩ := List.any_eq_true.mp hamong
      refine ⟨option, ?_, nullMarked_of_same hsame⟩
      simpa [Dialect.withNull, hamong] using hoption
    · refine ⟨_, ?_, nullMarked_nullFragment⟩
      simp [Dialect.withNull, hamong, hnullable]

theorem decides_oneOfFragment {options : List Json} (discriminator : Option Json)
    (h : ∀ option ∈ options, NullMarked dialect option → nullable = true) :
    (oneOfFragment dialect nullable options discriminator).Decides dialect (nullable = true) := by
  cases nullable with
  | true =>
    refine .single (by simp) ((nullMarked_oneOf _).trans (iff_of_true ?_ rfl))
    exact ⟨_, by simp [Dialect.withNull], nullMarked_nullFragment⟩
  | false =>
    have hoptions : Fragment.Decides dialect (false = true) [("oneOf", .array options)] := by
      refine .single (by simp) ((nullMarked_oneOf _).trans ⟨?_, nofun⟩)
      rintro ⟨option, hoption, hmarked⟩
      exact h option hoption hmarked
    exact hoptions.of_sameMarks (.insertSome _ (by decide) discriminator)

/-- Parts mark null just in case it is accepted, if one of them does not where it is not. -/
theorem decides_allOfFragment {parts : List Json}
    (h : nullable = false → ∃ part ∈ parts, ¬ NullMarked dialect part) :
    (allOfFragment dialect nullable parts).Decides dialect (nullable = true) := by
  cases nullable with
  | true =>
    refine .single (by simp) ((nullMarked_anyOf _).trans (iff_of_true ?_ rfl))
    exact ⟨_, by simp [Dialect.withNull], nullMarked_nullFragment⟩
  | false =>
    refine .single (by simp) ((nullMarked_allOf _).trans ⟨fun hall => ?_, nofun⟩)
    obtain ⟨part, hpart, hunmarked⟩ := h rfl
    exact absurd (hall part hpart) hunmarked

end Shape

end OpenApi
