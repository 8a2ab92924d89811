/-
# OpenApi.Proofs.Supplied -- what stands in a document because a caller gave it

Some values go into a document as they were given: document keys, further keys of parameters,
default values, finished bodies, headers and components. `Schema.given` and its companions list
them, and `Definition.schemas` lists the schemas that a definition gives to compile.

What compiling a site may write of its own is little: `Site.Wired` says what the keys, the
default and the shape of a site can be once the site was settled from a schema.
-/
import OpenApi.Document
import OpenApi.Proofs.Json
import OpenApi.Proofs.SchemaTree

namespace OpenApi

/-! ## Values given with schemas -/

/-- The values in a metadata record. -/
def Metadata.given (metadata : Metadata) : List Json :=
  .object metadata.fields :: (metadata.parameter.map fun info => Json.object info.extra).toList

namespace Schema

/-- The metadata record on a node itself. -/
def record? (s : Schema) : Option Metadata := s.label.bind (·.metadata)

/-- The values in a kind that are written as they are. -/
def Kind.given : Kind Schema → List Json
  | .default _ value => [value]
  | _ => []

/-- The values on a node itself. -/
def given (s : Schema) : List Json := ((s.record?.map Metadata.given).getD []) ++ s.kind.given

/-- A value that is given with some node of a schema tree. -/
def Gives (s : Schema) (value : Json) : Prop := ∃ t, s.Contains t ∧ value ∈ t.given

/-- Every link in a schema tree carries the identifier of the schema that it leads to. -/
def Linked (s : Schema) : Prop :=
  ∀ t, s.Contains t → ∀ link, t.link? = some link → link.schema.refId? = some link.refId

end Schema

/-! ## Values and schemas given with definitions -/

/-- The values given with the body in one media type. -/
def MediaType.given (media : MediaType) : List Json :=
  .object media.extra :: (match media.schema with
    | .schema _ => []
    | .raw value => [value])

/-- The schemas of the body in one media type. -/
def MediaType.schemas (media : MediaType) : List Schema :=
  match media.schema with
  | .schema s => [s]
  | .raw _ => []

/-- The values given with the body of a request. -/
def RequestBody.given (body : RequestBody) : List Json :=
  .object body.extra :: body.content.flatMap fun media => media.2.given

/-- The schemas of the body of a request. -/
def RequestBody.schemas (body : RequestBody) : List Schema :=
  body.content.flatMap fun media => media.2.schemas

/-- The values given with the headers of a response. -/
def ResponseHeaders.given : ResponseHeaders → List Json
  | schema _ => []
  | raw headers => [.object headers]

/-- The schemas of the headers of a response. -/
def ResponseHeaders.schemas : ResponseHeaders → List Schema
  | schema s => [s]
  | raw _ => []

/-- The values given with a response. -/
def Response.given (response : Response) : List Json :=
  .object response.extra :: (response.headers.toList.flatMap (·.given)
    ++ (response.content.getD []).flatMap fun media => media.2.given)

/-- The schemas of a response. -/
def Response.schemas (response : Response) : List Schema :=
  response.headers.toList.flatMap (·.schemas)
    ++ (response.content.getD []).flatMap fun media => media.2.schemas

/-- The schemas of a request: those of its sections, and of its body. -/
def Request.schemas (request : Request) : List Schema :=
  request.section .query ++ request.section .path ++ request.section .cookie
    ++ request.section .header ++ request.body.toList.flatMap (·.schemas)

/-- The values given with a route. -/
def Route.given (route : Route) : List Json :=
  .object route.operation :: (route.responses.flatMap (fun response => response.2.given)
    ++ (route.request.bind (·.body)).toList.flatMap (·.given))

/-- The schemas of a route. -/
def Route.schemas (route : Route) : List Schema :=
  route.responses.flatMap (fun response => response.2.schemas)
    ++ route.request.toList.flatMap (·.schemas)

theorem Response.schemas_of_headers {response : Response} {headers : ResponseHeaders}
    (h : response.headers = some headers) : headers.schemas ⊆ response.schemas := fun _ hs =>
  List.mem_append_left _ (List.mem_flatMap.mpr ⟨headers, Option.mem_toList.mpr h, hs⟩)

theorem Response.schemas_of_content {response : Response} {content : List (String × MediaType)}
    (h : response.content = some content) {media : String × MediaType} (hmedia : media ∈ content) :
    media.2.schemas ⊆ response.schemas := by
  intro s hs
  refine List.mem_append_right _ (List.mem_flatMap.mpr ⟨media, ?_, hs⟩)
  rw [h]
  exact hmedia

theorem Request.schemas_of_section (request : Request) (location : Location) :
    request.section location ⊆ request.schemas := by
  intro s hs
  cases location <;> simp [schemas, hs]

theorem Route.schemas_of_response {route : Route} {response : String × Response}
    (h : response ∈ route.responses) : response.2.schemas ⊆ route.schemas := fun _ hs =>
  List.mem_append_left _ (List.mem_flatMap.mpr ⟨response, h, hs⟩)

theorem Route.schemas_of_request {route : Route} {request : Request}
    (h : route.request = some request) : request.schemas ⊆ route.schemas := fun _ hs =>
  List.mem_append_right _ (List.mem_flatMap.mpr ⟨request, Option.mem_toList.mpr h, hs⟩)

theorem Route.schemas_of_body {route : Route} {body : RequestBody}
    (h : route.request.bind (·.body) = some body) : body.schemas ⊆ route.schemas := by
  intro s hs
  obtain ⟨request, hrequest, hbody⟩ := Option.bind_eq_some_iff.mp h
  refine schemas_of_request hrequest (List.mem_append_right _ (List.mem_flatMap.mpr ⟨body, ?_, hs⟩))
  exact Option.mem_toList.mpr hbody

namespace Definition

/-- The schemas that a definition gives to compile. -/
def schemas : Definition → List Schema
  | plain s | schema s | parameter s => [s]
  | component _ => []
  | route r | webhook r => r.schemas

/-- The values given with a definition, those of its schemas left out. A finished component
counts with its name. -/
def given : Definition → List Json
  | plain _ | schema _ | parameter _ => []
  | component c => [.object [(c.name, c.value)]]
  | route r | webhook r => r.given

/-- A value that a definition brings into the document as it is. -/
def Gives (d : Definition) (value : Json) : Prop := value ∈ d.given ∨ ∃ s ∈ d.schemas, s.Gives value

end Definition

/-! ## What is settled of a site -/

/-- A value without any object in it. -/
def Json.Flat (value : Json) : Prop := ∀ members, ¬ Json.Inside (.object members) value

namespace Shape

/-- The names that types have in a document. -/
def typeNames : List String := ["string", "number", "integer", "boolean", "object", "array"]

/-- The keys that a type can bring with it. -/
def detailKeys : List String := ["minLength", "maxLength", "format", "pattern", "enum"]

/-- What a shape that was settled from a schema can say. A scalar has the name of a type and keys
of types, which hold no objects; properties are listed under keys that satisfy `listed`; an
extension names its parent by the parent's identifier, if it is `linked`; and a discriminator maps
distinct values to identifiers of options. -/
def Wired (linked : Prop) (listed : List String → Prop) : Shape → Prop
  | scalar type _ keys =>
    type ∈ typeNames ∧ (Entries.keys keys).Nodup ∧ ∀ e ∈ keys, e.1 ∈ detailKeys ∧ e.2.Flat
  | object members => listed (Entries.keys members.properties)
  | extension members refId parent base _ =>
    listed (Entries.keys members.properties) ∧ listed (Entries.keys base)
      ∧ (linked → parent.refId = some refId)
  | oneOf options discriminator =>
    ∀ telling, discriminator = .ok (some telling) → ∃ name mapping,
      telling = .object [("propertyName", .string name), ("mapping", .object mapping)]
        ∧ (Entries.keys mapping).Nodup
        ∧ ∀ e ∈ mapping, ∃ c ∈ options, ∃ refId,
            c.refId = some refId ∧ e.2 = .string (Reference.schemaPath refId)
  | _ => True

theorem Wired.properties {linked : Prop} {listed : List String → Prop} {shape : Shape}
    (h : shape.Wired linked listed) (hnil : listed []) : listed (Entries.keys shape.properties) := by
  cases shape with
  | object members => exact h
  | extension members refId parent base baseRequired => exact h.1
  | _ => exact hnil

end Shape

/-- What a site that was settled from a schema can say: its keys were given, but for a
description, its default was given, and its shape is wired. -/
structure Site.Wired (linked : Prop) (listed : List String → Prop) (given : Json → Prop)
    (t : Site) : Prop where
  distinct : (Entries.keys t.keys).Nodup
  keys : ∀ e ∈ t.keys, (∃ text, e = ("description", .string text))
    ∨ ∃ fields, given (.object fields) ∧ e ∈ fields
  default : ∀ value, t.default = some value → given value
  shape : t.shape.Wired linked listed

namespace Schema

/-! ## What schemas give -/

theorem Gives.of_contains {s t : Schema} (h : s.Contains t) {value : Json} (hv : t.Gives value) :
    s.Gives value := by
  obtain ⟨u, hu, hvalue⟩ := hv
  exact ⟨u, h.trans hu, hvalue⟩

theorem Linked.of_contains {s t : Schema} (h : s.Linked) (ht : s.Contains t) : t.Linked :=
  fun u hu => h u (ht.trans hu)

theorem exists_label {s : Schema} {label : Label Schema} (h : s.visibleLabel = some label) :
    ∃ t, s.Contains t ∧ t.label = some label := by
  rw [visibleLabel] at h
  cases hown : s.label with
  | some own =>
    rw [hown] at h
    exact ⟨s, .refl s, hown.trans h⟩
  | none =>
    rw [hown] at h
    exact ⟨s.core, contains_core s, h⟩

theorem gives_of_ownMetadata? {s : Schema} {own : Metadata} (h : s.ownMetadata? = some own)
    {value : Json} (hv : value ∈ own.given) : s.Gives value := by
  obtain ⟨label, hlabel, hown⟩ := Option.bind_eq_some_iff.mp h
  obtain ⟨t, ht, htlabel⟩ := exists_label hlabel
  refine ⟨t, ht, List.mem_append_left _ ?_⟩
  have hrecord : t.record? = some own := by
    rw [record?, htlabel]
    exact hown
  rw [hrecord]
  exact hv

theorem mem_documentKeys_own {s : Schema} {e : String × Json} (h : e ∈ s.documentKeys) :
    (∃ text, e = ("description", .string text))
      ∨ ∃ own, s.ownMetadata? = some own ∧ e ∈ own.fields := by
  have hfields : e ∈ s.metadata.fields := (List.mem_filter.mp h).1
  have described (he : e ∈ Entries.insertSome [] "description" (s.visibleDescription.map .string)) :
      ∃ text, e = ("description", .string text) := by
    rcases Entries.mem_insertSome he with he | he
    · obtain ⟨v, hv, rfl⟩ := Option.map_eq_some_iff.mp he
      obtain ⟨text, _, rfl⟩ := Option.map_eq_some_iff.mp hv
      exact ⟨text, rfl⟩
    · cases he
  unfold metadata at hfields
  cases hown : s.ownMetadata? with
  | none =>
    rw [hown] at hfields
    exact Or.inl (described hfields)
  | some own =>
    rw [hown] at hfields
    rcases Entries.mem_extend hfields with he | he
    · exact Or.inr ⟨own, rfl, he⟩
    · exact Or.inl (described he)

/-- What is written on a schema without metadata fields is a description. -/
theorem described_of_fieldless {s : Schema}
    (fieldless : ∀ own, s.ownMetadata? = some own → own.fields = []) :
    ∀ e ∈ s.documentKeys, e.1 = "description" := by
  intro e he
  rcases mem_documentKeys_own he with ⟨text, rfl⟩ | ⟨own, hown, he⟩
  · rfl
  · rw [fieldless own hown] at he
    cases he

theorem mem_documentKeys {s : Schema} {e : String × Json} (h : e ∈ s.documentKeys) :
    (∃ text, e = ("description", .string text))
      ∨ ∃ fields, s.Gives (.object fields) ∧ e ∈ fields := by
  refine (mem_documentKeys_own h).imp_right ?_
  rintro ⟨own, hown, he⟩
  exact ⟨own.fields, gives_of_ownMetadata? hown List.mem_cons_self, he⟩

theorem nodup_documentKeys (s : Schema) : (Entries.keys s.documentKeys).Nodup := by
  refine Entries.nodup_keys_filter ?_ _
  have hempty : (Entries.keys ([] : Fragment)).Nodup := List.nodup_nil
  have hdescribed := Entries.nodup_keys_insertSome hempty "description"
    (s.visibleDescription.map .string)
  unfold metadata
  cases s.ownMetadata? with
  | none => exact hdescribed
  | some own => exact Entries.nodup_keys_extend hdescribed own.fields

theorem Gives.of_kind {s c : Schema} (h : c ∈ s.kind.schemas) {value : Json}
    (hv : c.Gives value) : s.Gives value := .of_contains (.of_kind h) hv

theorem gives_default? {s : Schema} {value : Json} (h : s.default? = some value) :
    s.Gives value := by
  induction s using induction with
  | step s ih =>
    obtain ⟨kind, description, label⟩ := s
    cases kind with
    | optional inner | nullable inner | effects inner =>
      rw [default?] at h
      exact .of_kind List.mem_cons_self (ih inner (List.mem_append_left _ List.mem_cons_self) h)
    | default inner written =>
      cases h
      exact ⟨_, .refl _, List.mem_append_right _ List.mem_cons_self⟩
    | _ => cases h

theorem gives_inputDefault? {s : Schema} {value : Json} (h : s.inputDefault? = some value) :
    s.Gives value := by
  induction s using induction with
  | step s ih =>
    obtain ⟨kind, description, label⟩ := s
    cases kind with
    | optional inner | nullable inner | branded inner _ | default inner _ | readonly inner
    | effects inner =>
      rw [inputDefault?] at h
      exact .of_kind List.mem_cons_self (ih inner (List.mem_append_left _ List.mem_cons_self) h)
    | pipeline input output =>
      rw [inputDefault?] at h
      have hinput : input ∈ (Kind.pipeline input output).schemas := List.mem_cons_self
      rcases Option.or_eq_some_iff.mp h with h | ⟨_, h⟩
      · exact .of_kind hinput (gives_default? h)
      · exact .of_kind hinput (ih input (List.mem_append_left _ hinput) h)
    | _ => cases h

end Schema

/-! ## Discriminators map to their options -/

namespace Discriminator

theorem mem_mapping {name : String} {labelled : List (String × Schema)} {mapped entries : Fragment}
    (h : mapping name mapped labelled = .ok entries) {e : String × Json} (he : e ∈ entries) :
    e ∈ mapped ∨ ∃ l ∈ labelled, e.2 = .string (Reference.schemaPath l.1) := by
  induction labelled generalizing mapped with
  | nil =>
    cases h
    exact Or.inl he
  | cons first rest ih =>
    obtain ⟨refId, option⟩ := first
    rw [mapping] at h
    split at h
    · cases h
    · rcases ih h with hmapped | ⟨l, hl, htarget⟩
      · rcases Entries.mem_extend hmapped with hnew | hold
        · obtain ⟨value, _, rfl⟩ := List.mem_map.mp hnew
          exact Or.inr ⟨_, List.mem_cons_self, rfl⟩
        · exact Or.inl hold
      · exact Or.inr ⟨l, List.mem_cons_of_mem _ hl, htarget⟩

theorem nodup_keys_mapping {name : String} {labelled : List (String × Schema)}
    {mapped entries : Fragment} (h : mapping name mapped labelled = .ok entries)
    (hmapped : (Entries.keys mapped).Nodup) : (Entries.keys entries).Nodup := by
  induction labelled generalizing mapped with
  | nil =>
    cases h
    exact hmapped
  | cons first rest ih =>
    rw [mapping] at h
    split at h
    · cases h
    · exact ih h (Entries.nodup_keys_extend hmapped _)

theorem mem_labelled {options : List Schema} {labelled : List (String × Schema)}
    (h : options.mapM (fun option => option.refId?.map (·, option)) = some labelled)
    {l : String × Schema} (hl : l ∈ labelled) : l.2 ∈ options ∧ l.2.refId? = some l.1 := by
  induction options generalizing labelled with
  | nil =>
    cases h
    cases hl
  | cons first rest ih =>
    rw [List.mapM_cons] at h
    obtain ⟨own, hown, h⟩ := Option.bind_eq_some_iff.mp h
    obtain ⟨others, hothers, h⟩ := Option.bind_eq_some_iff.mp h
    cases h
    rcases List.mem_cons.mp hl with rfl | hl
    · obtain ⟨refId, hrefId, rfl⟩ := Option.map_eq_some_iff.mp hown
      exact ⟨List.mem_cons_self, hrefId⟩
    · have htail := ih hothers hl
      exact ⟨List.mem_cons_of_mem _ htail.1, htail.2⟩

theorem object?_eq_some {name : String} {options : List Schema} {telling : Json}
    (h : object? name options = .ok (some telling)) :
    ∃ entries, telling = .object [("propertyName", .string name), ("mapping", .object entries)]
      ∧ (Entries.keys entries).Nodup
      ∧ ∀ e ∈ entries, ∃ s ∈ options, ∃ refId,
          s.refId? = some refId ∧ e.2 = .string (Reference.schemaPath refId) := by
  unfold object? at h
  split at h
  · cases h
  · rename_i labelled hlabelled
    cases hmapping : mapping name [] labelled with
    | error problem =>
      rw [hmapping] at h
      cases h
    | ok entries =>
      rw [hmapping] at h
      cases h
      refine ⟨entries, rfl, nodup_keys_mapping hmapping List.nodup_nil, fun e he => ?_⟩
      rcases mem_mapping hmapping he with hnil | ⟨l, hl, htarget⟩
      · cases hnil
      · have hoption := mem_labelled hlabelled hl
        exact ⟨l.2, hoption.1, l.1, hoption.2, htarget⟩

end Discriminator

/-! ## Settled sites are wired -/

namespace Json

theorem flat_string (text : String) : (string text).Flat := by
  intro members h
  cases h

theorem flat_number (n : Number) : (number n).Flat := by
  intro members h
  cases h

theorem flat_array {items : List Json} (h : ∀ item ∈ items, item.Flat) : (array items).Flat := by
  intro members hin
  cases hin with
  | item hitem hinside => exact h _ hitem members hinside

theorem flat_strings (texts : List String) : (strings texts).Flat := by
  apply flat_array
  intro item hitem
  obtain ⟨text, _, rfl⟩ := List.mem_map.mp hitem
  exact flat_string text

theorem flat_of_isString {value : Json} (h : value.isString = true) : value.Flat := by
  cases value with
  | string text => exact flat_string text
  | _ => cases h

theorem flat_of_isNumber {value : Json} (h : value.isNumber = true) : value.Flat := by
  cases value with
  | number n => exact flat_number n
  | _ => cases h

end Json

namespace Schema

section Shapes

variable {linked : Prop} {listed : List String → Prop}

theorem wired_scalar_enum {type : String} (htype : type ∈ Shape.typeNames)
    (checks : List NumberCheck) {values : List Json} (h : ∀ value ∈ values, value.Flat) :
    (Shape.scalar type checks [("enum", .array values)]).Wired linked listed := by
  have henum : "enum" ∈ Shape.detailKeys := by decide
  refine ⟨htype, List.nodup_singleton _, fun e he => ?_⟩
  rw [List.mem_singleton.mp he]
  exact ⟨henum, Json.flat_array h⟩

theorem wired_stringKeys (checks : List StringCheck) :
    (Shape.scalar "string" [] (stringKeys checks)).Wired linked listed := by
  have written {entries : Fragment} {key : String} {value : Option Json}
      (hkey : key ∈ Shape.detailKeys) (hvalue : ∀ v, value = some v → v.Flat)
      (hentries : ∀ e ∈ entries, e.1 ∈ Shape.detailKeys ∧ e.2.Flat) :
      ∀ e ∈ Entries.insertSome entries key value, e.1 ∈ Shape.detailKeys ∧ e.2.Flat := by
    intro e he
    rcases Entries.mem_insertSome he with he | he
    · obtain ⟨v, hv, rfl⟩ := Option.map_eq_some_iff.mp he
      exact ⟨hkey, hvalue v hv⟩
    · exact hentries e he
  have texts {o : Option String} : ∀ v, o.map Json.string = some v → v.Flat := by
    intro v hv
    obtain ⟨text, _, rfl⟩ := Option.map_eq_some_iff.mp hv
    exact Json.flat_string text
  have numbers {o : Option Nat} : ∀ v, o.map Json.nat = some v → v.Flat := by
    intro v hv
    obtain ⟨n, _, rfl⟩ := Option.map_eq_some_iff.mp hv
    exact Json.flat_number _
  have empty : ∀ e ∈ ([] : Fragment), e.1 ∈ Shape.detailKeys ∧ e.2.Flat := fun e he => by cases he
  have least := written (by decide : "minLength" ∈ _)
    (numbers (o := (StringCheck.exactLength? checks).or (StringCheck.minLength? checks))) empty
  have most := written (by decide : "maxLength" ∈ _)
    (numbers (o := (StringCheck.exactLength? checks).or (StringCheck.maxLength? checks))) least
  have format := written (by decide : "format" ∈ _) (texts (o := StringCheck.format? checks)) most
  have hempty : (Entries.keys ([] : Fragment)).Nodup := List.nodup_nil
  refine ⟨by decide, ?_, written (by decide : "pattern" ∈ _)
    (texts (o := StringCheck.pattern? checks)) format⟩
  exact Entries.nodup_keys_insertSome (Entries.nodup_keys_insertSome (Entries.nodup_keys_insertSome
    (Entries.nodup_keys_insertSome hempty _ _) _ _) _ _) _ _

theorem wired_literalShape (value : Json) : (literalShape value).Wired linked listed := by
  unfold literalShape
  cases value with
  | string text =>
    refine wired_scalar_enum (by decide) _ fun v hv => ?_
    rw [List.mem_singleton.mp hv]
    exact Json.flat_string text
  | number n =>
    refine wired_scalar_enum (by decide) _ fun v hv => ?_
    rw [List.mem_singleton.mp hv]
    exact Json.flat_number n
  | bool b =>
    refine wired_scalar_enum (by decide) _ fun v hv => ?_
    rw [List.mem_singleton.mp hv]
    intro members h
    cases h
  | null | array _ | object _ => trivial

theorem wired_nativeEnumShape (members : List (String × Json)) :
    (nativeEnumShape members).Wired linked listed := by
  unfold nativeEnumShape
  dsimp only
  split
  · rename_i hstrings
    exact wired_scalar_enum (by decide) _ fun v hv =>
      Json.flat_of_isString (List.all_eq_true.mp hstrings v hv)
  · split
    · rename_i hnumbers
      exact wired_scalar_enum (by decide) _ fun v hv =>
        Json.flat_of_isNumber (List.all_eq_true.mp hnumbers v hv)
    · trivial

theorem wired_plain {type : String} (htype : type ∈ Shape.typeNames) (checks : List NumberCheck) :
    (Shape.scalar type checks []).Wired linked listed :=
  ⟨htype, List.nodup_nil, fun e he => by cases he⟩

theorem keys_fieldSites (fields : List (String × Schema)) :
    Entries.keys (fieldSites fields) = Entries.keys fields := by
  rw [fieldSites_eq, Entries.keys, List.map_map]
  rfl

/-- Every object in a schema tree lists its fields under keys that satisfy a condition. -/
def Lists (listed : List String → Prop) (s : Schema) : Prop :=
  ∀ t, s.Contains t → ∀ fields treatment catchall, t.kind = .object fields treatment catchall →
    listed (Entries.keys fields)

theorem Lists.of_contains {s t : Schema} (h : s.Lists listed) (ht : s.Contains t) :
    t.Lists listed := fun u hu => h u (ht.trans hu)

/-- The shape of a schema whose links lead where they say is wired. -/
theorem wired_shape (hnil : listed []) (s : Schema) :
    (linked → s.Linked) → s.Lists listed → ∀ piped, (s.shape piped).Wired linked listed := by
  induction s using induction with
  | step s ih =>
    intro hlinked lists piped
    -- The children are the schemas of the kind, and the extended object that a link leads to.
    have below {t : Schema} (ht : t ∈ s.children) (piped : Bool) : (t.shape piped).Wired linked listed :=
      ih t ht (fun h => (hlinked h).of_contains (.child ht)) (lists.of_contains (.child ht)) piped
    have under {t : Schema} (ht : t ∈ s.kind.schemas) (piped : Bool) :
        (t.shape piped).Wired linked listed := below (List.mem_append_left _ ht) piped
    obtain ⟨kind, description, label⟩ := s
    cases kind with
    | string checks =>
      rw [shape]
      exact wired_stringKeys checks
    | bigint checks =>
      rw [shape]
      refine ⟨by decide, List.nodup_singleton _, fun e he => ?_⟩
      rw [List.mem_singleton.mp he]
      exact ⟨by decide, Json.flat_string _⟩
    | literal value =>
      rw [shape]
      exact wired_literalShape value
    | enumeration values =>
      rw [shape]
      refine wired_scalar_enum (by decide) _ fun v hv => ?_
      obtain ⟨text, _, rfl⟩ := List.mem_map.mp hv
      exact Json.flat_string text
    | nativeEnum members =>
      rw [shape]
      exact wired_nativeEnumShape members
    | object fields treatment catchall =>
      have hfields : listed (Entries.keys (fieldSites fields)) := by
        rw [keys_fieldSites]
        exact lists _ (.refl _) fields treatment catchall rfl
      unfold shape
      dsimp only
      split
      · rename_i own refId parent metadata
        refine ⟨hfields, ?_, fun h => hlinked h _ (.refl _) ⟨refId, parent⟩ rfl⟩
        have hparent := below (t := parent) (List.mem_append_right _ List.mem_cons_self) false
        split
        · exact hparent.properties hnil
        · exact hnil
      · exact hfields
    | discriminatedUnion name options =>
      rw [shape]
      intro telling htelling
      obtain ⟨entries, rfl, hnodup, hentries⟩ := Discriminator.object?_eq_some htelling
      refine ⟨name, entries, rfl, hnodup, fun e he => ?_⟩
      obtain ⟨option, hoption, refId, hrefId, htarget⟩ := hentries e he
      -- The target is the identifier of an option, and every option is a child.
      refine ⟨option.siteOf (option.shape false), ?_, refId, hrefId, htarget⟩
      rw [sites_eq]
      exact List.mem_map_of_mem hoption
    | effects inner =>
      rw [shape]
      split
      · trivial
      · exact under List.mem_cons_self false
    | optional inner | nullable inner | default inner _ | branded inner _ | readonly inner =>
      rw [shape]
      exact under List.mem_cons_self false
    | pipeline input output =>
      rw [shape]
      exact under List.mem_cons_self true
    | number checks =>
      rw [shape]
      refine wired_plain ?_ checks
      split <;> decide
    | boolean | date =>
      rw [shape]
      exact wired_plain (by decide) []
    | _ =>
      unfold shape
      trivial

end Shapes

/-- Every site that compiling a schema visits is wired. -/
theorem wired_of_reaches {s : Schema} {linked : Prop} {listed : List String → Prop}
    {given : Json → Prop} (hnil : listed []) (hlinked : linked → s.Linked) (lists : s.Lists listed)
    (hgiven : ∀ value, s.Gives value → given value) {t : Site} (h : s.site.Reaches t) :
    t.Wired linked listed given := by
  obtain ⟨t, ht, rfl⟩ := settled_of_reaches h
  constructor
  · exact nodup_documentKeys t
  · intro e he
    rcases mem_documentKeys he with hdescribed | ⟨fields, hfields, hmem⟩
    · exact Or.inl hdescribed
    · exact Or.inr ⟨fields, hgiven _ (hfields.of_contains ht), hmem⟩
  · intro value hvalue
    refine hgiven value (.of_contains ht ?_)
    rcases Option.or_eq_some_iff.mp hvalue with h | ⟨_, h⟩
    · exact gives_default? h
    · exact gives_inputDefault? h
  · exact wired_shape hnil t (fun h => (hlinked h).of_contains ht) (lists.of_contains ht) false

end Schema

end OpenApi
