/-
# OpenApi.Proofs.Json -- what stands inside a value

`Inside part whole` says that a value occurs somewhere in another, or is it. A property of
objects holds `Everywhere` in a value if every object inside it has the property; that is
how statements about whole documents are made. A value is `Distinct` if no object inside it
repeats a key, and equality of values is reflexive on such values.
-/
import OpenApi.Json.Basic
import OpenApi.Proofs.Entries

namespace OpenApi.Json

/-! ## Occurrence -/

/-- A value occurs in another, at any depth, or is it. -/
inductive Inside (part : Json) : Json → Prop
  | self : Inside part part
  | item {items : List Json} {item : Json} :
      item ∈ items → Inside part item → Inside part (.array items)
  | member {members : List (String × Json)} {e : String × Json} :
      e ∈ members → Inside part e.2 → Inside part (.object members)

theorem Inside.trans {part middle whole : Json} (h : Inside part middle)
    (h' : Inside middle whole) : Inside part whole := by
  induction h' with
  | self => exact h
  | item hitem _ ih => exact .item hitem ih
  | member he _ ih => exact .member he ih

/-- Some object inside the value has the given member. -/
def Holds (whole : Json) (key : String) (value : Json) : Prop :=
  ∃ members, Inside (.object members) whole ∧ (key, value) ∈ members

/-- Every object inside the value has a property. -/
def Everywhere (P : List (String × Json) → Prop) (whole : Json) : Prop :=
  ∀ members, Inside (.object members) whole → P members

section Everywhere

variable {P Q : List (String × Json) → Prop}

theorem everywhere_object {members : List (String × Json)} :
    Everywhere P (.object members) ↔ P members ∧ ∀ e ∈ members, Everywhere P e.2 := by
  constructor
  · intro h
    exact ⟨h members .self, fun e he inner hinner => h inner (.member he hinner)⟩
  · rintro ⟨hself, hmembers⟩ inner hinner
    cases hinner with
    | self => exact hself
    | member he hinside => exact hmembers _ he inner hinside

theorem everywhere_array {items : List Json} :
    Everywhere P (.array items) ↔ ∀ item ∈ items, Everywhere P item := by
  constructor
  · intro h item hitem inner hinner
    exact h inner (.item hitem hinner)
  · intro h inner hinner
    cases hinner with
    | item hitem hinside => exact h _ hitem inner hinside

theorem everywhere_string (text : String) : Everywhere P (.string text) := by
  intro inner hinner
  cases hinner

theorem everywhere_null : Everywhere P .null := by
  intro inner hinner
  cases hinner

theorem everywhere_bool (b : Bool) : Everywhere P (.bool b) := by
  intro inner hinner
  cases hinner

theorem everywhere_number (n : Number) : Everywhere P (.number n) := by
  intro inner hinner
  cases hinner

theorem everywhere_ofBinary64 (value : Binary64) : Everywhere P (ofBinary64 value) := by
  cases value with
  | finite d => exact everywhere_number _
  | infinite negative => exact everywhere_null
  | nan => exact everywhere_null

theorem Everywhere.mono (h : ∀ members, P members → Q members) {whole : Json}
    (hw : Everywhere P whole) : Everywhere Q whole := fun members hin => h members (hw members hin)

end Everywhere

/-! ## Distinct keys -/

/-- No object inside the value repeats a key. -/
def Distinct (whole : Json) : Prop := Everywhere (fun members => (Entries.keys members).Nodup) whole

theorem sizeOf_member_lt {members : List (String × Json)} {e : String × Json} (h : e ∈ members) :
    sizeOf e.2 < sizeOf members := by
  have hlt := List.sizeOf_lt_of_mem h
  obtain ⟨k, v⟩ := e
  rw [Prod.mk.sizeOf_spec] at hlt
  show sizeOf v < _
  omega

theorem Number.same_refl (n : Number) : n.same n = true := by
  cases n with
  | int i => exact beq_self_eq_true i
  | double d =>
    show (d == d || _) = true
    rw [beq_self_eq_true, Bool.true_or]

theorem sameItems_self {items : List Json} (h : ∀ item ∈ items, item.same item = true) :
    sameItems items items = true := by
  induction items with
  | nil => rfl
  | cons first rest ih =>
    rw [sameItems, h first List.mem_cons_self,
      ih fun item hitem => h item (List.mem_cons_of_mem _ hitem)]
    rfl

theorem sameMembers_of_get? {members whole : List (String × Json)}
    (h : ∀ e ∈ members, ∃ value, Entries.get? whole e.1 = some value ∧ e.2.same value = true) :
    sameMembers members whole = true := by
  induction members with
  | nil => rfl
  | cons first rest ih =>
    obtain ⟨value, hvalue, hsame⟩ := h first List.mem_cons_self
    rw [sameMembers, hvalue, ih fun e he => h e (List.mem_cons_of_mem _ he)]
    show (first.2.same value && true) = true
    rw [hsame]
    rfl

/-- Two objects have nothing or equal values under a key. -/
def SameAt (members members' : List (String × Json)) (key : String) : Prop :=
  (Entries.get? members key = none ∧ Entries.get? members' key = none)
    ∨ ∃ value value', Entries.get? members key = some value
        ∧ Entries.get? members' key = some value' ∧ value.same value' = true

/-- Objects without repeated keys are equal if they are so under each key. -/
theorem same_object_of_sameAt {members members' : List (String × Json)}
    (distinct : (Entries.keys members).Nodup) (distinct' : (Entries.keys members').Nodup)
    (h : ∀ key, SameAt members members' key) :
    (Json.object members).same (.object members') = true := by
  have hkeys : ∀ key, key ∈ Entries.keys members ↔ key ∈ Entries.keys members' := by
    intro key
    rw [← Entries.contains_iff_mem_keys, ← Entries.contains_iff_mem_keys, Entries.contains,
      Entries.contains]
    rcases h key with ⟨hnone, hnone'⟩ | ⟨value, value', hvalue, hvalue', -⟩
    · rw [hnone, hnone']
    · rw [hvalue, hvalue']
      rfl
  have hperm := (List.perm_ext_iff_of_nodup distinct distinct').mpr hkeys
  have hlength : members.length = members'.length := by
    simpa [Entries.keys] using hperm.length_eq
  rw [same, hlength, beq_self_eq_true, Bool.true_and]
  refine sameMembers_of_get? fun e he => ?_
  have hfound := Entries.get?_of_mem distinct he
  rcases h e.1 with ⟨hnone, -⟩ | ⟨value, value', hvalue, hvalue', hsame⟩
  · cases hfound.symm.trans hnone
  · obtain rfl := Option.some.inj (hfound.symm.trans hvalue)
    exact ⟨value', hvalue', hsame⟩

/-- A value in which no object repeats a key equals itself. -/
theorem same_refl (value : Json) (distinct : value.Distinct) : value.same value = true := by
  match value with
  | .null => rfl
  | .bool b => exact beq_self_eq_true b
  | .number n => exact n.same_refl
  | .string s => exact beq_self_eq_true s
  | .array items =>
    rw [same]
    exact sameItems_self fun item hitem =>
      same_refl item (everywhere_array.mp distinct item hitem)
  | .object members =>
    obtain ⟨hkeys, hvalues⟩ := everywhere_object.mp distinct
    rw [same, beq_self_eq_true, Bool.true_and]
    exact sameMembers_of_get? fun e he =>
      have := sizeOf_member_lt he
      ⟨e.2, Entries.get?_of_mem hkeys he, same_refl e.2 (hvalues e he)⟩
termination_by sizeOf value

theorem sameAt_of_get?_eq {members members' : List (String × Json)} {key : String}
    (h : Entries.get? members key = Entries.get? members' key)
    (distinct : ∀ value, Entries.get? members' key = some value → value.Distinct) :
    SameAt members members' key := by
  cases hvalue : Entries.get? members' key with
  | none => exact Or.inl ⟨h.trans hvalue, hvalue⟩
  | some value =>
    exact Or.inr ⟨value, value, h.trans hvalue, hvalue, same_refl value (distinct value hvalue)⟩

end OpenApi.Json
