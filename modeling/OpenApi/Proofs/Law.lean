/-
# OpenApi.Proofs.Law -- laws about what stands in a document

A `Law` says what the members of objects in a document have to satisfy: all of them, and, more
strictly, those of a compiled fragment, which may be put under any key. What a member satisfies
may depend on the `Stock` of components there are so far, and is kept when the stock grows.

A law is `Lawful` if whatever a compilation writes of its own (`Written`) satisfies it, and so
does what callers gave, as far as the law `Grants` it. Then everything that is compiled satisfies
it: closed values and sealed fragments pass through all operations on them. A composition without
members is not among what is `Written`; a site that writes one (`Site.Hollow`) satisfies a law only
if the law grants it (`Law.Fills`).
-/
import Mathlib.Data.List.Induction
import Mathlib.Order.Defs.PartialOrder
import OpenApi.Proofs.Supplied

namespace OpenApi

/-! ## Stock -/

/-- The components that may be referred to: the schemas and the parameters stored so far. -/
structure Stock where
  schemas : Store Fragment
  parameters : Store Fragment

namespace Stock

/-- A stock grows when its stores do. -/
instance : Preorder Stock where
  le small large := small.schemas ≤ large.schemas ∧ small.parameters ≤ large.parameters
  le_refl _ := ⟨le_refl _, le_refl _⟩
  le_trans _ _ _ h h' := ⟨le_trans h.1 h'.1, le_trans h.2 h'.2⟩

/-- A path leads to a component. -/
def Resolves (stock : Stock) (path : String) : Prop :=
  (∃ refId, stock.schemas.contains refId = true ∧ path = Reference.schemaPath refId)
    ∨ ∃ refId, stock.parameters.contains refId = true ∧ path = Reference.parameterPath refId

theorem Resolves.mono {small large : Stock} (h : small ≤ large) {path : String}
    (hr : small.Resolves path) : large.Resolves path := by
  rcases hr with ⟨refId, hrefId, hpath⟩ | ⟨refId, hrefId, hpath⟩
  · exact Or.inl ⟨refId, Store.contains_of_le h.1 hrefId, hpath⟩
  · exact Or.inr ⟨refId, Store.contains_of_le h.2 hrefId, hpath⟩

/-- Every member of a mapping leads to a stored schema. -/
def Maps (stock : Stock) (mapping : Fragment) : Prop :=
  ∀ e ∈ mapping, ∃ refId,
    stock.schemas.contains refId = true ∧ e.2 = .string (Reference.schemaPath refId)

theorem Maps.mono {small large : Stock} (h : small ≤ large) {mapping : Fragment}
    (hm : small.Maps mapping) : large.Maps mapping := by
  intro e he
  obtain ⟨refId, hrefId, htarget⟩ := hm e he
  exact ⟨refId, Store.contains_of_le h.1 hrefId, htarget⟩

end Stock

/-! ## What compilations write of their own -/

/-- Keys under which compositions stand. -/
def compositionKeys : List String := ["anyOf", "oneOf", "allOf"]

/-- Keys under which other parts of a document stand. -/
def partKeys : List String :=
  ["items", "minItems", "maxItems", "properties", "required", "additionalProperties", "default",
    "description", "schema", "in", "name", "content", "headers", "parameters", "requestBody",
    "responses", "schemas", "components", "paths", "webhooks", "propertyName"]

/-- The members that compilations write, references, discriminators and compositions without members
left out. -/
inductive Written (dialect : Dialect) : String × Json → Prop
  | type {name : String} : name ∈ Shape.typeNames → Written dialect ("type", .string name)
  | nullType : dialect = .types → Written dialect ("type", .string "null")
  | typeOrNull (items : List Json) : dialect = .types →
      Written dialect ("type", .array (items ++ [.string "null"]))
  | nullable : dialect = .flags → Written dialect ("nullable", .bool true)
  | bound {key : String} (value : Binary64) : key ∈ ["minimum", "maximum", "multipleOf"] →
      Written dialect (key, Dialect.numberValue value)
  | strict {key : String} : dialect = .flags → key ∈ ["exclusiveMinimum", "exclusiveMaximum"] →
      Written dialect (key, .bool true)
  | strictBound {key : String} (value : Binary64) : dialect = .types →
      key ∈ ["exclusiveMinimum", "exclusiveMaximum"] →
      Written dialect (key, Dialect.numberValue value)
  | detail {e : String × Json} : e.1 ∈ Shape.detailKeys → e.2.Flat → Written dialect e
  | part {key : String} (value : Json) : key ∈ partKeys → Written dialect (key, value)
  | composition {key : String} {items : List Json} : key ∈ compositionKeys → items ≠ [] →
      Written dialect (key, .array items)
  | method (method : Method) (value : Json) : Written dialect (method.text, value)

/-- The keys of what compilations write, those of compositions left out. -/
def plainKeys : List String :=
  ["type", "nullable", "minimum", "maximum", "multipleOf", "exclusiveMinimum", "exclusiveMaximum"]
    ++ Shape.detailKeys ++ partKeys ++ Method.all.map Method.text

theorem Written.key_mem {dialect : Dialect} {e : String × Json} (h : Written dialect e) :
    e.1 ∈ plainKeys ∨ e.1 ∈ compositionKeys ∧ ∃ items, items ≠ [] ∧ e.2 = .array items := by
  have hbounds : ["minimum", "maximum", "multipleOf"] ⊆ plainKeys := by decide
  have hstrict : ["exclusiveMinimum", "exclusiveMaximum"] ⊆ plainKeys := by decide
  have hdetails : Shape.detailKeys ⊆ plainKeys := by decide
  have hparts : partKeys ⊆ plainKeys := by decide
  have htype : "type" ∈ plainKeys := by decide
  have hnullable : "nullable" ∈ plainKeys := by decide
  cases h with
  | type _ => exact Or.inl htype
  | nullType _ => exact Or.inl htype
  | typeOrNull _ _ => exact Or.inl htype
  | nullable _ => exact Or.inl hnullable
  | bound _ hkey => exact Or.inl (hbounds hkey)
  | strict _ hkey => exact Or.inl (hstrict hkey)
  | strictBound _ _ hkey => exact Or.inl (hstrict hkey)
  | detail hkey _ => exact Or.inl (hdetails hkey)
  | part _ hkey => exact Or.inl (hparts hkey)
  | composition hkey hitems => exact Or.inr ⟨hkey, _, hitems, rfl⟩
  | method method _ =>
    have hmethod : method.text ∈ plainKeys := by cases method <;> decide
    exact Or.inl hmethod

/-- The key under which a shape writes a composition without members: a tuple without items, or
alternatives of which there are none, where null is none either. -/
inductive Shape.Hollow (nullable : Bool) : Shape → String → Prop
  | tuple : Hollow nullable (.tuple []) "anyOf"
  | anyOf : nullable = false → Hollow nullable (.anyOf []) "anyOf"
  | oneOf (telling : Option Json) : nullable = false →
      Hollow nullable (.oneOf [] (.ok telling)) "oneOf"
  | allOf : Hollow nullable (.allOf []) "allOf"

theorem Shape.Hollow.key_mem {nullable : Bool} {shape : Shape} {key : String}
    (h : shape.Hollow nullable key) : key ∈ compositionKeys := by
  cases h <;> decide

/-- A site whose shape writes a composition without members, and no type stands in for the shape. -/
def Site.Hollow (t : Site) (key : String) : Prop :=
  t.override? = none ∧ t.shape.Hollow t.nullable key

/-! ## Laws -/

/-- What the keys of objects, all members, the members of fragments and the members that were
given have to satisfy, and whether references have to lead somewhere. -/
structure Law where
  Binds : Prop
  Keys : List String → Prop
  Allows : Stock → String × Json → Prop
  Seals : Stock → String × Json → Prop
  Grants : String × Json → Prop

namespace Law

variable (law : Law)

/-- Every object inside a value is as the law has it. -/
def Closed (stock : Stock) (value : Json) : Prop :=
  Json.Everywhere (fun members => law.Keys (Entries.keys members)
    ∧ ∀ e ∈ members, law.Allows stock e) value

/-- Every object inside a given value is as the law grants it. -/
def Clean (value : Json) : Prop :=
  Json.Everywhere (fun members => law.Keys (Entries.keys members) ∧ ∀ e ∈ members, law.Grants e)
    value

/-- A fragment that may be put under any key. -/
structure Sealed (stock : Stock) (fragment : Fragment) : Prop where
  keys : law.Keys (Entries.keys fragment)
  seals : ∀ e ∈ fragment, law.Seals stock e
  closed : ∀ e ∈ fragment, law.Closed stock e.2

/-- The law grants the composition without members that a site writes, if it writes one. -/
def Fills (t : Site) : Prop := ∀ key, t.Hollow key → law.Grants (key, .array [])

/-- A law that whatever is compiled satisfies, if what is given does. -/
structure Lawful (dialect : Dialect) : Prop where
  keys_nil : law.Keys []
  keys_snoc : ∀ {keys : List String} {key : String}, law.Keys keys → key ∉ keys →
    law.Keys (keys ++ [key])
  keys_sublist : ∀ {keys keys' : List String}, keys'.Sublist keys → law.Keys keys → law.Keys keys'
  allows_mono : ∀ {small large : Stock} {e : String × Json}, small ≤ large →
    law.Allows small e → law.Allows large e
  seals_mono : ∀ {small large : Stock} {e : String × Json}, small ≤ large →
    law.Seals small e → law.Seals large e
  allows : ∀ {stock : Stock} {e : String × Json}, law.Seals stock e → law.Allows stock e
  placed : ∀ {stock : Stock} {fragment : Fragment} (key : String),
    (∀ e ∈ fragment, law.Seals stock e) → law.Allows stock (key, .object fragment)
  granted : ∀ {e : String × Json} (stock : Stock), law.Grants e → law.Seals stock e
  written : ∀ {e : String × Json} (stock : Stock), Written dialect e → law.Seals stock e
  reference : ∀ {stock : Stock} {path : String}, (law.Binds → stock.Resolves path) →
    law.Seals stock ("$ref", .string path)
  mapping : ∀ {stock : Stock} {mapping : Fragment}, stock.Maps mapping →
    law.Allows stock ("mapping", .object mapping) ∧ ∀ e ∈ mapping, law.Allows stock e
  discriminator : ∀ {stock : Stock} {name : String} {mapping : Fragment}, stock.Maps mapping →
    law.Seals stock ("discriminator",
      .object [("propertyName", .string name), ("mapping", .object mapping)])

variable {law} {dialect : Dialect} {stock small large : Stock} {fragment later : Fragment}
  {key : String} {value : Json}

namespace Lawful

theorem keys_of_nodup (lawful : law.Lawful dialect) {keys : List String} (h : keys.Nodup) :
    law.Keys keys := by
  induction keys using List.reverseRecOn with
  | nil => exact lawful.keys_nil
  | append_singleton keys key ih =>
    obtain ⟨hkeys, _, hdisjoint⟩ := List.nodup_append.mp h
    refine lawful.keys_snoc (ih hkeys) fun hmem => ?_
    exact hdisjoint key hmem key (List.mem_singleton_self key) rfl

/-- A composition may be written if it has members, or if the law grants one without. -/
theorem composition (lawful : law.Lawful dialect) (hkey : key ∈ compositionKeys)
    {items : List Json} (granted : items = [] → law.Grants (key, .array [])) :
    law.Seals stock (key, .array items) := by
  cases items with
  | nil => exact lawful.granted stock (granted rfl)
  | cons first rest => exact lawful.written stock (.composition hkey (List.cons_ne_nil first rest))

end Lawful

section Growth

variable (lawful : law.Lawful dialect) (h : small ≤ large)

include lawful h

theorem Closed.mono (hc : law.Closed small value) : law.Closed large value :=
  Json.Everywhere.mono
    (fun _ hmembers => ⟨hmembers.1, fun e he => lawful.allows_mono h (hmembers.2 e he)⟩) hc

theorem Sealed.mono (hs : law.Sealed small fragment) : law.Sealed large fragment where
  keys := hs.keys
  seals e he := lawful.seals_mono h (hs.seals e he)
  closed e he := (hs.closed e he).mono lawful h

end Growth

/-! ## Closed values -/

theorem closed_of_flat (h : value.Flat) : law.Closed stock value :=
  fun members hin => absurd hin (h members)

theorem closed_string (text : String) : law.Closed stock (.string text) :=
  closed_of_flat (Json.flat_string text)

theorem closed_number (n : Json.Number) : law.Closed stock (.number n) :=
  closed_of_flat (Json.flat_number n)

theorem closed_bool (b : Bool) : law.Closed stock (.bool b) := Json.everywhere_bool b

theorem closed_array {items : List Json} (h : ∀ item ∈ items, law.Closed stock item) :
    law.Closed stock (.array items) := Json.everywhere_array.mpr h

theorem closed_items {items : List Json} (h : law.Closed stock (.array items)) :
    ∀ item ∈ items, law.Closed stock item := Json.everywhere_array.mp h

theorem closed_numberValue (value : Binary64) : law.Closed stock (Dialect.numberValue value) := by
  unfold Dialect.numberValue
  split
  · split
    · exact closed_number _
    · exact Json.everywhere_ofBinary64 value
  · exact Json.everywhere_ofBinary64 value

section Lawful

variable (lawful : law.Lawful dialect)

include lawful

theorem Sealed.object (h : law.Sealed stock fragment) : law.Closed stock (.object fragment) :=
  Json.everywhere_object.mpr ⟨⟨h.keys, fun e he => lawful.allows (h.seals e he)⟩, h.closed⟩

theorem Clean.sealed {members : Fragment} (h : law.Clean (.object members)) (stock : Stock) :
    law.Sealed stock members := by
  obtain ⟨⟨hkeys, hmembers⟩, hvalues⟩ := Json.everywhere_object.mp h
  refine ⟨hkeys, fun e he => lawful.granted stock (hmembers e he), fun e he inner hin => ?_⟩
  obtain ⟨hinner, hgrants⟩ := hvalues e he inner hin
  exact ⟨hinner, fun e he => lawful.allows (lawful.granted stock (hgrants e he))⟩

theorem Clean.closed (h : law.Clean value) (stock : Stock) : law.Closed stock value := by
  intro inner hin
  obtain ⟨hinner, hgrants⟩ := h inner hin
  exact ⟨hinner, fun e he => lawful.allows (lawful.granted stock (hgrants e he))⟩

/-! ## Fragments under keys -/

end Lawful

/-- Fragments under keys, as the properties of an object or the media types of a body. -/
def Holds (law : Law) (stock : Stock) (entries : Fragment) : Prop :=
  ∀ e ∈ entries, ∃ fragment, e.2 = .object fragment ∧ law.Sealed stock fragment

/-- Fragments in a list, as the alternatives of a union or the items of a tuple. -/
def Lists (law : Law) (stock : Stock) (values : List Json) : Prop :=
  ∀ value ∈ values, ∃ fragment, value = .object fragment ∧ law.Sealed stock fragment

theorem holds_nil : law.Holds stock [] := fun e he => by cases he

theorem Holds.cons {entries : Fragment} (hf : law.Sealed stock fragment)
    (h : law.Holds stock entries) : law.Holds stock ((key, .object fragment) :: entries) := by
  intro e he
  rcases List.mem_cons.mp he with rfl | he
  · exact ⟨fragment, rfl, hf⟩
  · exact h e he

theorem Holds.filter {entries : Fragment} (h : law.Holds stock entries)
    (p : String × Json → Bool) : law.Holds stock (entries.filter p) :=
  fun e he => h e (List.mem_of_mem_filter he)

section Lawful

variable (lawful : law.Lawful dialect)

include lawful

theorem Holds.mono (h : small ≤ large) {entries : Fragment} (hh : law.Holds small entries) :
    law.Holds large entries := by
  intro e he
  obtain ⟨fragment, hfragment, hsealed⟩ := hh e he
  exact ⟨fragment, hfragment, hsealed.mono lawful h⟩

theorem Holds.closed {entries : Fragment} (hkeys : law.Keys (Entries.keys entries))
    (h : law.Holds stock entries) : law.Closed stock (.object entries) := by
  refine Json.everywhere_object.mpr ⟨⟨hkeys, ?_⟩, ?_⟩ <;> rintro ⟨key, value⟩ he <;>
    obtain ⟨fragment, rfl, hsealed⟩ := h _ he
  · exact lawful.placed key hsealed.seals
  · exact hsealed.object lawful

theorem Lists.closed {values : List Json} (h : law.Lists stock values) :
    ∀ value ∈ values, law.Closed stock value := by
  intro value hvalue
  obtain ⟨fragment, rfl, hsealed⟩ := h value hvalue
  exact hsealed.object lawful

end Lawful

/-! ## Sealed fragments -/

namespace Sealed

variable (lawful : law.Lawful dialect)

include lawful

theorem nil : law.Sealed stock [] :=
  ⟨lawful.keys_nil, fun _ he => absurd he List.not_mem_nil, fun _ he => absurd he List.not_mem_nil⟩

theorem insert (h : law.Sealed stock fragment) (hs : law.Seals stock (key, value))
    (hc : law.Closed stock value) : law.Sealed stock (Entries.insert fragment key value) := by
  constructor
  · rw [Entries.keys_insert]
    split
    · exact h.keys
    · rename_i hkey
      exact lawful.keys_snoc h.keys hkey
  · intro e he
    rcases Entries.mem_insert he with rfl | he
    · exact hs
    · exact h.seals e he
  · intro e he
    rcases Entries.mem_insert he with rfl | he
    · exact hc
    · exact h.closed e he

/-- What a compilation writes may be written into a sealed fragment. -/
theorem write (h : law.Sealed stock fragment) (hw : Written dialect (key, value))
    (hc : law.Closed stock value) : law.Sealed stock (Entries.insert fragment key value) :=
  h.insert lawful (lawful.written stock hw) hc

theorem single (hw : Written dialect (key, value)) (hc : law.Closed stock value) :
    law.Sealed stock [(key, value)] := (nil lawful).write lawful hw hc

theorem composition (hkey : key ∈ compositionKeys) {items : List Json}
    (granted : items = [] → law.Grants (key, .array []))
    (hc : ∀ item ∈ items, law.Closed stock item) : law.Sealed stock [(key, .array items)] :=
  (nil lawful).insert lawful (lawful.composition hkey granted) (closed_array hc)

theorem writeSome {value : Option Json} (h : law.Sealed stock fragment)
    (hw : ∀ v, value = some v → Written dialect (key, v))
    (hc : ∀ v, value = some v → law.Closed stock v) :
    law.Sealed stock (Entries.insertSome fragment key value) := by
  cases value with
  | none => exact h
  | some v => exact h.write lawful (hw v rfl) (hc v rfl)

theorem extend (h : law.Sealed stock fragment) (h' : law.Sealed stock later) :
    law.Sealed stock (Entries.extend fragment later) := by
  have hfold : ∀ (entries written : Fragment), law.Sealed stock written →
      (∀ e ∈ entries, law.Seals stock e ∧ law.Closed stock e.2) →
      law.Sealed stock (Entries.extend written entries) := by
    intro entries
    induction entries with
    | nil => exact fun _ hwritten _ => hwritten
    | cons first rest ih =>
      intro written hwritten hentries
      obtain ⟨hs, hc⟩ := hentries first List.mem_cons_self
      exact ih _ (hwritten.insert lawful hs hc) fun e he => hentries e (List.mem_cons_of_mem _ he)
  exact hfold later fragment h fun e he => ⟨h'.seals e he, h'.closed e he⟩

theorem filter (h : law.Sealed stock fragment) (p : String × Json → Bool) :
    law.Sealed stock (fragment.filter p) :=
  ⟨lawful.keys_sublist ((List.filter_sublist).map _) h.keys,
    fun e he => h.seals e (List.mem_of_mem_filter he),
    fun e he => h.closed e (List.mem_of_mem_filter he)⟩

theorem overlay (h : law.Sealed stock fragment) (h' : law.Sealed stock later) :
    law.Sealed stock (Fragment.overlay fragment later) :=
  (h.extend lawful h').filter lawful _

theorem withDefault {default : Option Json} (h : law.Sealed stock fragment)
    (hd : ∀ v, default = some v → law.Closed stock v) :
    law.Sealed stock (Fragment.withDefault fragment default) := by
  cases default with
  | none => exact h
  | some v =>
    show law.Sealed stock (if v.isNull then fragment else Entries.insert fragment "default" v)
    split
    · exact h
    · exact h.write lawful (.part v (by decide)) (hd v rfl)

end Sealed

section References

variable (lawful : law.Lawful dialect)

include lawful

theorem sealed_toPath {path : String} (h : law.Binds → stock.Resolves path) :
    law.Sealed stock (Reference.toPath path) :=
  (Sealed.nil lawful).insert lawful (lawful.reference h) (closed_string path)

theorem sealed_toSchema {refId : String} (h : law.Binds → stock.schemas.contains refId = true) :
    law.Sealed stock (Reference.toSchema refId) :=
  sealed_toPath lawful fun hb => Or.inl ⟨refId, h hb, rfl⟩

theorem sealed_toParameter {refId : String} (h : stock.parameters.contains refId = true) :
    law.Sealed stock (Reference.toParameter refId) :=
  sealed_toPath lawful fun _ => Or.inr ⟨refId, h, rfl⟩

theorem sealed_referenceAnd {refId : String} {delta : Fragment}
    (h : law.Binds → stock.schemas.contains refId = true) (hd : law.Sealed stock delta) :
    law.Sealed stock (Fragment.referenceAnd refId delta) := by
  refine Sealed.composition lawful (by decide) (fun hnil => ?_) fun item hitem => ?_
  · cases hnil
  rcases List.mem_cons.mp hitem with rfl | hitem
  · exact (sealed_toSchema lawful h).object lawful
  · rw [List.mem_singleton.mp hitem]
    exact hd.object lawful

theorem sealed_referenceWith {refId : String} {delta : Fragment}
    (h : law.Binds → stock.schemas.contains refId = true) (hd : law.Sealed stock delta) :
    law.Sealed stock (Fragment.referenceWith refId delta) := by
  unfold Fragment.referenceWith
  split
  · exact sealed_toSchema lawful h
  · exact sealed_referenceAnd lawful h hd

/-- The object of a discriminator is closed if its targets are stored. -/
theorem closed_discriminator {name : String} {mapping : Fragment} (h : stock.Maps mapping)
    (hnodup : (Entries.keys mapping).Nodup) :
    law.Closed stock (.object [("propertyName", .string name), ("mapping", .object mapping)]) := by
  have hkeys : law.Keys ["propertyName", "mapping"] := lawful.keys_of_nodup (by decide)
  have htargets : law.Closed stock (.object mapping) := by
    refine Json.everywhere_object.mpr ⟨⟨lawful.keys_of_nodup hnodup, ?_⟩, fun e he => ?_⟩
    · exact (lawful.mapping h).2
    · obtain ⟨refId, _, htarget⟩ := h e he
      rw [htarget]
      exact closed_string _
  have hmembers : ∀ e ∈ [("propertyName", Json.string name), ("mapping", Json.object mapping)],
      law.Allows stock e ∧ law.Closed stock e.2 := by
    intro e he
    rcases List.mem_cons.mp he with rfl | he
    · exact ⟨lawful.allows (lawful.written stock (.part _ (by decide))), closed_string name⟩
    · rw [List.mem_singleton.mp he]
      exact ⟨(lawful.mapping h).1, htargets⟩
  exact Json.everywhere_object.mpr
    ⟨⟨hkeys, fun e he => (hmembers e he).1⟩, fun e he => (hmembers e he).2⟩

end References

/-! ## What dialects write -/

section Dialect

variable (lawful : law.Lawful dialect)

include lawful

theorem sealed_typeKeys {type : Option Json} (nullable : Bool)
    (hseals : ∀ v, type = some v → law.Seals stock ("type", v))
    (hclosed : ∀ v, type = some v → law.Closed stock v) :
    law.Sealed stock (dialect.typeKeys type nullable) := by
  have htyped (v : Json) (hv : type = some v) : law.Sealed stock [("type", v)] :=
    (Sealed.nil lawful).insert lawful (hseals v hv) (hclosed v hv)
  cases dialect with
  | flags =>
    have hmarked {typed : Fragment} (h : law.Sealed stock typed) :
        law.Sealed stock (Entries.insert typed "nullable" (.bool true)) :=
      h.write lawful (.nullable rfl) (closed_bool true)
    cases type with
    | none =>
      cases nullable with
      | false => exact Sealed.nil lawful
      | true => exact hmarked (Sealed.nil lawful)
    | some v =>
      cases nullable with
      | false => exact htyped v rfl
      | true => exact hmarked (htyped v rfl)
  | types =>
    cases type with
    | none => exact Sealed.nil lawful
    | some v =>
      have hv : law.Closed stock v := hclosed v rfl
      cases nullable with
      | false => exact htyped v rfl
      | true =>
        refine Sealed.single lawful (.typeOrNull _ rfl) (closed_array fun item hitem => ?_)
        rcases List.mem_append.mp hitem with hitem | hitem
        · split at hitem
          · exact closed_items hv item hitem
          · rw [List.mem_singleton.mp hitem]
            exact hv
        · rw [List.mem_singleton.mp hitem]
          exact closed_string _

theorem sealed_typeName {name : String} (hname : name ∈ Shape.typeNames) (nullable : Bool) :
    law.Sealed stock (dialect.typeKeys (some (.string name)) nullable) := by
  refine sealed_typeKeys lawful nullable (fun v hv => ?_) fun v hv => ?_
  · cases hv
    exact lawful.written stock (.type hname)
  · cases hv
    exact closed_string name

theorem sealed_nullFragment : law.Sealed stock dialect.nullFragment := by
  cases dialect with
  | flags => exact Sealed.single lawful (.nullable rfl) (closed_bool true)
  | types => exact Sealed.single lawful (.nullType rfl) (closed_string _)

theorem sealed_checkKeys (check : NumberCheck) : law.Sealed stock (dialect.checkKeys check) := by
  have hbound {key : String} (value : Binary64) (hkey : key ∈ ["minimum", "maximum", "multipleOf"]) :
      law.Sealed stock [(key, Dialect.numberValue value)] :=
    Sealed.single lawful (.bound value hkey) (closed_numberValue value)
  cases check with
  | int => cases dialect <;> exact Sealed.nil lawful
  | finite => cases dialect <;> exact Sealed.nil lawful
  | multipleOf factor => cases dialect <;> exact hbound factor (by decide)
  | min value inclusive =>
    cases dialect with
    | flags =>
      cases inclusive with
      | true => exact hbound value (by decide)
      | false =>
        exact (hbound value (by decide : "minimum" ∈ _)).write lawful
          (.strict rfl (by decide : "exclusiveMinimum" ∈ _)) (closed_bool true)
    | types =>
      cases inclusive with
      | true => exact hbound value (by decide)
      | false =>
        exact Sealed.single lawful (.strictBound value rfl (by decide)) (closed_numberValue value)
  | max value inclusive =>
    cases dialect with
    | flags =>
      cases inclusive with
      | true => exact hbound value (by decide)
      | false =>
        exact (hbound value (by decide : "maximum" ∈ _)).write lawful
          (.strict rfl (by decide : "exclusiveMaximum" ∈ _)) (closed_bool true)
    | types =>
      cases inclusive with
      | true => exact hbound value (by decide)
      | false =>
        exact Sealed.single lawful (.strictBound value rfl (by decide)) (closed_numberValue value)

theorem sealed_numberKeys (checks : List NumberCheck) :
    law.Sealed stock (dialect.numberKeys checks) := by
  have hfold : ∀ keys : Fragment, law.Sealed stock keys → law.Sealed stock
      (checks.foldl (fun keys check => Entries.extend keys (dialect.checkKeys check)) keys) := by
    induction checks with
    | nil => exact fun _ h => h
    | cons check rest ih => exact fun keys h => ih _ (h.extend lawful (sealed_checkKeys lawful check))
  exact hfold [] (Sealed.nil lawful)

theorem closed_withNull {values : List Json} (nullable : Bool)
    (h : ∀ value ∈ values, law.Closed stock value) :
    ∀ value ∈ dialect.withNull values nullable, law.Closed stock value := by
  unfold Dialect.withNull
  split
  · intro item hitem
    rcases List.mem_append.mp hitem with hitem | hitem
    · exact h item hitem
    · rw [List.mem_singleton.mp hitem]
      exact (sealed_nullFragment lawful).object lawful
  · exact h

end Dialect

/-! ## What shapes write -/

theorem mem_distinct {values : List Json} (h : value ∈ Json.distinct values) : value ∈ values := by
  have hfold : ∀ found : List Json, value ∈ values.foldl
      (fun found value => if value.isAmong found then found else found ++ [value]) found →
      value ∈ found ∨ value ∈ values := by
    clear h
    induction values with
    | nil => exact fun _ h => Or.inl h
    | cons first rest ih =>
      intro found h
      rcases ih _ h with h | h
      · dsimp only at h
        split at h
        · exact Or.inl h
        · rcases List.mem_append.mp h with h | h
          · exact Or.inl h
          · exact Or.inr (List.mem_singleton.mp h ▸ List.mem_cons_self)
      · exact Or.inr (List.mem_cons_of_mem _ h)
  rcases hfold [] h with h | h
  · cases h
  · exact h

theorem distinct_eq_nil {values : List Json} (h : Json.distinct values = []) : values = [] := by
  have hfold : ∀ (rest found : List Json), found ≠ [] → rest.foldl
      (fun found value => if value.isAmong found then found else found ++ [value]) found ≠ [] := by
    intro rest
    induction rest with
    | nil => exact fun _ hfound => hfound
    | cons first rest ih =>
      intro found hfound
      refine ih _ ?_
      dsimp only
      split
      · exact hfound
      · exact List.append_ne_nil_of_left_ne_nil hfound _
  cases values with
  | nil => rfl
  | cons first rest => exact absurd h (hfold rest [first] (List.cons_ne_nil _ _))

theorem withNull_eq_nil {values : List Json} {nullable : Bool}
    (h : dialect.withNull values nullable = []) : values = [] ∧ nullable = false := by
  unfold Dialect.withNull at h
  split at h
  · exact absurd h (List.append_ne_nil_of_right_ne_nil _ (List.cons_ne_nil _ _))
  · rename_i hnullable
    exact ⟨h, Bool.eq_false_iff.mpr hnullable⟩

section Shapes

variable (lawful : law.Lawful dialect) (nullable : Bool)

include lawful

theorem sealed_scalarFragment {default : Option Json} {type : String}
    (htype : type ∈ Shape.typeNames) (checks : List NumberCheck) {keys : Fragment}
    (hnodup : (Entries.keys keys).Nodup) (hkeys : ∀ e ∈ keys, e.1 ∈ Shape.detailKeys ∧ e.2.Flat)
    (hdefault : ∀ v, default = some v → law.Closed stock v) :
    law.Sealed stock (Shape.scalarFragment dialect nullable default type checks keys) := by
  have hsealed : law.Sealed stock keys :=
    ⟨lawful.keys_of_nodup hnodup,
      fun e he => lawful.written stock (.detail (hkeys e he).1 (hkeys e he).2),
      fun e he => closed_of_flat (hkeys e he).2⟩
  have htyped : law.Sealed stock (dialect.typeKeys (some (.string type)) nullable) :=
    sealed_typeName lawful htype nullable
  have hchecked := htyped.extend lawful (sealed_numberKeys lawful checks)
  exact (hchecked.extend lawful hsealed).withDefault lawful hdefault

theorem sealed_objectFragment {default : Option Json} {properties : Fragment}
    (required : List String) {additional : Option Json}
    (hdefault : ∀ v, default = some v → law.Closed stock v)
    (hproperties : law.Closed stock (.object properties))
    (hadditional : ∀ v, additional = some v → law.Closed stock v) :
    law.Sealed stock
      (Shape.objectFragment dialect nullable default properties required additional) := by
  have htyped : law.Sealed stock (dialect.typeKeys (some (.string "object")) nullable) :=
    sealed_typeName lawful (by decide) nullable
  have hdefaulted := htyped.withDefault lawful hdefault
  have hshaped := hdefaulted.write lawful (.part _ (by decide : "properties" ∈ _)) hproperties
  refine Sealed.writeSome lawful ?_ (fun v _ => .part v (by decide)) hadditional
  split
  · exact hshaped
  · exact hshaped.write lawful (.part _ (by decide)) (closed_of_flat (Json.flat_strings required))

theorem sealed_arrayFragment {items : Json} (least most : Option Nat)
    (hitems : law.Closed stock items) :
    law.Sealed stock (Shape.arrayFragment dialect nullable items least most) := by
  have hnumber {o : Option Nat} : ∀ v, o.map Json.nat = some v → law.Closed stock v := by
    intro v hv
    obtain ⟨n, _, rfl⟩ := Option.map_eq_some_iff.mp hv
    exact closed_number _
  have htyped : law.Sealed stock (dialect.typeKeys (some (.string "array")) nullable) :=
    sealed_typeName lawful (by decide) nullable
  have hshaped := htyped.write lawful (.part _ (by decide : "items" ∈ _)) hitems
  have hleast := hshaped.writeSome lawful (fun v _ => .part v (by decide : "minItems" ∈ _))
    (hnumber (o := least))
  exact hleast.writeSome lawful (fun v _ => .part v (by decide)) hnumber

theorem closed_tupleItems {items : List Json}
    (granted : items = [] → law.Grants ("anyOf", .array []))
    (h : ∀ item ∈ items, law.Closed stock item) :
    law.Closed stock (Shape.tupleItems items) := by
  have hdistinct : ∀ item ∈ Json.distinct items, law.Closed stock item := fun item hitem =>
    h item (mem_distinct hitem)
  unfold Shape.tupleItems
  split
  · rename_i item heq
    exact hdistinct item (heq ▸ List.mem_cons_self)
  · refine (Sealed.composition lawful (by decide) (fun hnil => ?_) hdistinct).object lawful
    exact granted (distinct_eq_nil hnil)

theorem sealed_anyOfFragment {options : List Json}
    (granted : nullable = false → options = [] → law.Grants ("anyOf", .array []))
    (h : ∀ o ∈ options, law.Closed stock o) :
    law.Sealed stock (Shape.anyOfFragment dialect nullable options) := by
  refine Sealed.composition lawful (by decide) (fun hnil => ?_) (closed_withNull lawful _ h)
  -- Null is not among no options, so it is missing if it is accepted.
  obtain ⟨rfl, hmissing⟩ := withNull_eq_nil hnil
  refine granted ?_ rfl
  simpa [Json.isAmong] using hmissing

theorem sealed_oneOfFragment {options : List Json} {discriminator : Option Json}
    (granted : nullable = false → options = [] → law.Grants ("oneOf", .array []))
    (h : ∀ o ∈ options, law.Closed stock o)
    (hseals : ∀ v, discriminator = some v → law.Seals stock ("discriminator", v))
    (hclosed : ∀ v, discriminator = some v → law.Closed stock v) :
    law.Sealed stock (Shape.oneOfFragment dialect nullable options discriminator) := by
  unfold Shape.oneOfFragment
  split
  · refine Sealed.composition lawful (by decide) (fun hnil => ?_) (closed_withNull lawful true h)
    cases (withNull_eq_nil hnil).2
  · rename_i hnullable
    have hoptions : law.Sealed stock [("oneOf", .array options)] :=
      Sealed.composition lawful (by decide) (granted (Bool.eq_false_iff.mpr hnullable)) h
    cases discriminator with
    | none => exact hoptions
    | some v => exact hoptions.insert lawful (hseals v rfl) (hclosed v rfl)

theorem sealed_allOfFragment {parts : List Json}
    (granted : parts = [] → law.Grants ("allOf", .array []))
    (h : ∀ p ∈ parts, law.Closed stock p) :
    law.Sealed stock (Shape.allOfFragment dialect nullable parts) := by
  have hall : law.Sealed stock [("allOf", .array parts)] :=
    Sealed.composition lawful (by decide) granted h
  unfold Shape.allOfFragment
  dsimp only
  split
  · refine Sealed.composition lawful (by decide) (fun hnil => ?_) (closed_withNull lawful true ?_)
    · cases (withNull_eq_nil hnil).2
    · intro value hvalue
      rw [List.mem_singleton.mp hvalue]
      exact hall.object lawful
  · exact hall

theorem sealed_dictionaryFragment (h : law.Closed stock value) :
    law.Sealed stock (Shape.dictionaryFragment dialect nullable value) :=
  (sealed_typeName lawful (by decide) nullable).write lawful (.part _ (by decide)) h

end Shapes

end Law

end OpenApi
