/-
# OpenApi.Proofs.ExtensionDeltas -- what an extension says beside the object that it extends

An object that extends a named one becomes a reference and an object of its own, which is taken
against the one that it extends.

The required keys of the two add up (`Store.Requires`): a key that the extended object demands stays
required, whatever the extension says about it, since a part of `allOf` can only demand more. So the
whole requires what either of them demands, which is what the extension demands just in case it
makes nothing optional.

The properties and the required keys of the object of its own are those that the extended object does
not have. What is said about other keys is not taken against anything, and is said again.
-/
import OpenApi.Proofs.ExtensionChains
import OpenApi.Proofs.Recompilation

namespace OpenApi

/-! ## Required keys -/

/-- The fragment's own list of required keys has the key. -/
def Fragment.Demands (fragment : Fragment) (key : String) : Prop :=
  ∃ required, ("required", .array required) ∈ fragment ∧ .string key ∈ required

/-- A key is required: by the list of the fragment, of one of its parts, or of the named schema that
it refers to. -/
def Store.Requires (store : Store Fragment) (fragment : Fragment) (key : String) : Prop :=
  store.Composes (fun part => part.Demands key) fragment

namespace Store

variable {store : Store Fragment} {name key : String} {part : Fragment}

theorem requires_toSchema_iff :
    store.Requires (Reference.toSchema name) key
      ↔ ∃ stored, store.get? name = some stored ∧ store.Requires stored key :=
  composes_toSchema_iff (by simp [Fragment.Demands, Reference.toSchema, Reference.toPath])

theorem requires_referenceAnd_iff :
    store.Requires (Fragment.referenceAnd name part) key
      ↔ store.Requires (Reference.toSchema name) key ∨ store.Requires part key :=
  composes_referenceAnd_iff (by simp [Fragment.Demands, Fragment.referenceAnd])

/-- A description has no part in what is required. -/
theorem requires_overlay_iff {body written : Fragment}
    (hwritten : Entries.keys written ⊆ ["description"]) :
    store.Requires (Fragment.overlay body written) key ↔ store.Requires body key := by
  have hother {other : String} (hne : other ≠ "description") : other ∉ Entries.keys written :=
    fun hmem => hne (List.mem_singleton.mp (hwritten hmem))
  refine composes_overlay_iff (fun other hother' => hother ?_) ?_
  · rintro rfl
    exact absurd hother' (by decide)
  · have hrequired : "required" ≠ "description" := by decide
    have hlist (required : List Json) : ("required", .array required) ∈ Fragment.overlay body written
        ↔ ("required", .array required) ∈ body :=
      Fragment.mem_overlay_iff (hother hrequired) rfl
    simp only [Fragment.Demands, hlist]

end Store

/-! ## The keys of objects -/

namespace Shape

variable {dialect : Dialect} {nullable : Bool} {default : Option Json} {properties : Fragment}
  {required : List String} {additional : Option Json} {key : String}

theorem get?_objectFragment_properties :
    Entries.get? (objectFragment dialect nullable default properties required additional) "properties"
      = some (.object properties) :=
  Entries.get?_of_mem (nodup_keys_objectFragment _ _ _ _ _ _)
    (properties_mem_objectFragment _ _ _ _ _)

/-- What comes before the properties is said by other keys than those of an object. -/
theorem get?_typed_eq_none (h : key ∉ ["type", "nullable", "default"]) :
    Entries.get? (Fragment.withDefault (dialect.typeKeys (some (.string "object")) nullable) default)
      key = none := by
  refine Entries.get?_eq_none_iff.mpr fun hmem => h ?_
  obtain ⟨e, he, rfl⟩ := List.mem_map.mp hmem
  rcases Fragment.mem_withDefault he with hdefault | htyped
  · simp [hdefault]
  · rcases Dialect.mem_typeKeys htyped with htype | hnullable
    · simp [htype]
    · simp [hnullable]

theorem get?_objectFragment_required :
    Entries.get? (objectFragment dialect nullable default properties required additional) "required"
      = if required.isEmpty then none else some (.strings required) := by
  unfold objectFragment
  rw [Entries.get?_insertSome_of_ne _ _ (by decide : "required" ≠ "additionalProperties")]
  split
  · rw [Entries.get?_insert_of_ne _ _ (by decide : "required" ≠ "properties")]
    exact get?_typed_eq_none (by decide)
  · exact Entries.get?_insert_self _ _ _

theorem get?_objectFragment_additional :
    Entries.get? (objectFragment dialect nullable default properties required additional)
      "additionalProperties" = additional := by
  have hproperties : "additionalProperties" ≠ "properties" := by decide
  have hrequired : "additionalProperties" ≠ "required" := by decide
  have htyped : "additionalProperties" ∉ ["type", "nullable", "default"] := by decide
  unfold objectFragment
  cases additional with
  | some value => exact Entries.get?_insert_self _ _ _
  | none =>
    dsimp only [Entries.insertSome]
    split
    · rw [Entries.get?_insert_of_ne _ _ hproperties, get?_typed_eq_none htyped]
    · rw [Entries.get?_insert_of_ne _ _ hrequired, Entries.get?_insert_of_ne _ _ hproperties,
        get?_typed_eq_none htyped]

theorem demands_objectFragment_iff :
    (objectFragment dialect nullable default properties required additional).Demands key
      ↔ key ∈ required := by
  constructor
  · rintro ⟨listed, hmem, hkey⟩
    have hlisted := Entries.get?_of_mem (nodup_keys_objectFragment _ _ _ _ _ _) hmem
    rw [get?_objectFragment_required] at hlisted
    split at hlisted
    · cases hlisted
    · cases hlisted
      obtain ⟨found, hfound, hsame⟩ := List.mem_map.mp hkey
      cases hsame
      exact hfound
  · intro hkey
    refine ⟨required.map .string, Entries.mem_of_get? ?_, List.mem_map_of_mem hkey⟩
    rw [get?_objectFragment_required, if_neg (by simpa using List.ne_nil_of_mem hkey)]
    rfl

/-- An object requires the keys that it was given, and no others. -/
theorem requires_objectFragment_iff {store : Store Fragment} :
    store.Requires (objectFragment dialect nullable default properties required additional) key
      ↔ key ∈ required := by
  have hplain : ("properties" : String) ∉ Fragment.composingKeys := by decide
  refine (Store.composes_iff_of_plain fun e he hcomposing => ?_).trans demands_objectFragment_iff
  have hproperties := eq_properties_of_mem_objectFragment _ _ _ _ _ he
    (List.mem_cons_of_mem "properties" hcomposing)
  rw [hproperties] at hcomposing
  exact hplain hcomposing

end Shape

/-! ## What objects and extensions demand -/

namespace Schema

/-- An object has a field with the key that does not accept a missing value. -/
def Demands (s : Schema) (key : String) : Prop :=
  ∃ field, (key, field) ∈ s.fields ∧ field.isOptional = false

/-- What is required by what is compiled for an object: the keys that it demands, but for an extension
only those beside the object that it extends, together with what is required there. -/
def Imposes (s : Schema) (store : Store Fragment) (key : String) : Prop :=
  match s.link? with
  | none => s.Demands key
  | some parent =>
    store.Requires (Reference.toSchema parent.refId) key
      ∨ s.Demands key ∧ ¬ parent.schema.core.Demands key

variable {s : Schema} {key : String}

theorem mem_required_members : key ∈ s.members.required ↔ s.Demands key := by
  have hmem (fields : List (String × Schema)) : key ∈ requiredKeys fields
      ↔ ∃ field, (key, field) ∈ fields ∧ field.isOptional = false := by
    simp [requiredKeys]
  unfold members Demands fields
  split
  · exact hmem _
  · simp

theorem imposes_of_unlinked (h : s.link? = none) {store : Store Fragment} :
    s.Imposes store key ↔ s.Demands key := by
  rw [Imposes, h]

theorem imposes_of_linked {parent : Parent Schema} (h : s.link? = some parent)
    {store : Store Fragment} :
    s.Imposes store key ↔ store.Requires (Reference.toSchema parent.refId) key
      ∨ s.Demands key ∧ ¬ parent.schema.core.Demands key := by
  rw [Imposes, h]

/-- What is compiled for an object requires what the object imposes, in whatever state it is read. -/
theorem requires_shape (object : s.isObject = true) {dialect : Dialect} {nullable : Bool}
    {default : Option Json} {store after : Store Fragment} {body : Fragment}
    (h : (s.shape false).compile dialect nullable default store = .ok (body, after))
    (later : Store Fragment) : later.Requires body key ↔ s.Imposes later key := by
  cases hlink : s.link? with
  | none =>
    rw [shape_of_unlinked object hlink, Shape.compile] at h
    obtain ⟨properties, _, _, h⟩ := Compile.of_bind_ok h
    obtain ⟨others, _, _, h⟩ := Compile.of_bind_ok h
    rw [(Compile.of_pure_ok h).1, imposes_of_unlinked hlink, ← mem_required_members]
    exact Shape.requires_objectFragment_iff
  | some parent =>
    rw [shape_of_linked object hlink, Shape.compile] at h
    obtain ⟨properties, _, _, h⟩ := Compile.of_bind_ok h
    obtain ⟨others, _, _, h⟩ := Compile.of_bind_ok h
    obtain ⟨_, _, _, h⟩ := Compile.of_bind_ok h
    obtain ⟨inherited, _, _, h⟩ := Compile.of_bind_ok h
    rw [(Compile.of_pure_ok h).1, imposes_of_linked hlink, Store.requires_referenceAnd_iff,
      Shape.requires_objectFragment_iff, List.mem_filter, ← mem_required_members,
      ← mem_required_members]
    simp

/-! ## Schemas without document keys -/

/-- No document keys are given with a schema. It may have a description. -/
def Plain (s : Schema) : Prop := ∀ own, s.ownMetadata? = some own → own.fields = []

theorem Plain.keys (h : s.Plain) : Entries.keys s.documentKeys ⊆ ["description"] := by
  intro key hkey
  obtain ⟨e, he, rfl⟩ := List.mem_map.mp hkey
  rcases mem_documentKeys_own he with ⟨text, rfl⟩ | ⟨own, hown, he⟩
  · exact List.mem_singleton_self _
  · rw [h own hown] at he
    cases he

/-- So a type of its own does not stand in for what is compiled. -/
theorem Plain.override? (h : s.Plain) : s.site.override? = none :=
  Entries.get?_eq_none_iff.mpr fun hmem => absurd (h.keys hmem) (by decide)

theorem Plain.parameter (h : s.Plain) (info : ParameterInfo) : (s.parameter info).Plain := by
  intro own hown
  rw [Schema.parameter, Parameter.ownMetadata?_annotate, Option.some.injEq] at hown
  subst hown
  cases hexisting : s.ownMetadata? with
  | none => rfl
  | some existing =>
    show Entries.extend existing.fields [] = []
    exact h existing hexisting

/-- An extension is given what the extended object is given. -/
theorem Plain.extend (h : s.Plain) (object : s.isObject = true) (fields : List (String × Schema)) :
    (s.extend fields).Plain := by
  have hown : (s.extend fields).ownMetadata? = s.ownMetadata? := by
    rw [ownMetadata?, visibleLabel_of_isObject (isObject_extend object fields)]
    obtain ⟨kind, description, label⟩ := s
    cases kind <;> first | rfl | cases object
  intro own
  rw [hown]
  exact h own

/-- Wherever the identifier of an object is visible in a schema tree, the object is what is compiled
there, and no document keys are given with it. -/
def Presents (object s : Schema) : Prop :=
  ∀ t, s.Contains t → ∀ name, object.refId? = some name → t.refId? = some name →
    t.shape false = object.shape false ∧ t.Plain

variable {P : Schema}

theorem hereditary_presents : Hereditary (Presents P) := by
  refine hereditary_of_contains fun s info h name hname hrefId => ?_
  rw [Schema.parameter, refId?_annotate] at hrefId
  obtain ⟨hshape, hplain⟩ := h name hname hrefId
  exact ⟨(shape_annotate s _).trans hshape, hplain.parameter info⟩

theorem presents_of_respects (object : P.isObject = true) (plain : P.Plain) (h : s.Respects [P]) :
    P.Presents s := by
  intro t ht name hname hrefId
  obtain ⟨hcore, hlabel⟩ :=
    core_of_respects object h List.mem_cons_self hname ht hrefId
  refine ⟨?_, fun own hown => ?_⟩
  · rw [← hcore, shape_core]
  · rw [ownMetadata?, hlabel] at hown
    exact plain own hown

end Schema

/-! ## What is stored for an object -/

/-- What is stored under the identifier of an object requires what the object imposes. -/
def Store.Bears (store : Store Fragment) (P : Schema) : Prop :=
  ∀ name stored, store.get? name = some stored → P.refId? = some name →
    ∀ later key, Store.Requires later stored key ↔ P.Imposes later key

section Stored

variable {dialect : Dialect} {P s : Schema} (object : P.isObject = true)

include object

/-- Whatever shows the identifier of an object requires what the object imposes. -/
theorem Schema.Presents.requires (h : P.Presents s) {u : Site} (hu : s.site.Reaches u) {name : String}
    (hrefId : u.refId = some name) {store mid : Store Fragment} {body : Fragment}
    (hbody : u.body dialect false store = .ok (body, mid)) (named : P.refId? = some name)
    (later : Store Fragment) (key : String) :
    later.Requires (Fragment.overlay body u.keys) key ↔ P.Imposes later key := by
  obtain ⟨t, ht, rfl⟩ := Schema.settled_of_reaches hu
  obtain ⟨hshape, hplain⟩ := h t ht name named hrefId
  have hsite : t.site.shape = P.shape false := hshape
  rw [Site.body_of_shape false hplain.override?, hsite] at hbody
  exact (Store.requires_overlay_iff hplain.keys).trans (Schema.requires_shape object hbody later)

/-- Compiling a schema in which nothing else carries the identifier of an object keeps what is stored
under the identifier as the object has it. -/
theorem Schema.Presents.moves (h : P.Presents s) {t : Site} (ht : s.site.Reaches t) (reply : Reply) :
    Compile.Moves (Store.Preserves fun store => store.Bears P) (t.compile dialect reply) :=
  t.moves_stored (fun _ => id) reply fun _ hu _ hrefId _ _ _ hbody _ =>
    h.requires object (ht.trans hu) hrefId hbody

theorem Generation.Leads.bears {admitted : Definition → Prop} {generation : Generation}
    (plain : P.Plain) (respects : ∀ d, admitted d → ∀ s ∈ d.schemas, s.Respects [P])
    (h : Leads dialect admitted {} generation) : generation.schemas.Bears P := by
  refine h.moves_of_schemas (Store.Preserves.refl _) (Store.Preserves.trans _)
    Schema.hereditary_presents (fun s hs t ht reply => hs.moves object ht reply)
    (fun d hd s hs => Schema.presents_of_respects object plain (respects d hd s hs)) ?_
  intro name stored hget
  cases hget

end Stored

/-! ## Requiredness of extensions -/

namespace Schema

variable {dialect : Dialect} {reply : Reply} {P : Schema} {name : String} {store after : Store Fragment}
  {answer : Fragment}

theorem refId?_extend (object : P.isObject = true) (fields : List (String × Schema)) :
    (P.extend fields).refId? = none := by
  rw [refId?, identity?, visibleLabel_of_isObject (isObject_extend object fields)]
  obtain ⟨kind, description, label⟩ := P
  cases kind <;> first | rfl | cases object

theorem link?_extend_named (object : P.isObject = true) (named : P.refId? = some name)
    (fields : List (String × Schema)) : (P.extend fields).link? = some ⟨name, P⟩ := by
  rw [link?_extend object, named]
  rfl

/-- An extension becomes what its shape becomes, under its description. -/
theorem answer_extend (object : P.isObject = true) (plain : P.Plain) (fields : List (String × Schema))
    (h : (P.extend fields).site.compile dialect reply store = .ok (answer, after)) :
    ∃ body, ((P.extend fields).shape false).compile dialect (P.extend fields).site.nullable
        (P.extend fields).site.default store = .ok (body, after)
      ∧ answer = Fragment.overlay body (P.extend fields).documentKeys := by
  have hunnamed : (P.extend fields).site.refId = none := refId?_extend object fields
  obtain ⟨body, hbody, hanswer⟩ := Site.answer_of_unnamed hunnamed h
  rw [Site.body_of_shape false (plain.extend object fields).override?] at hbody
  exact ⟨body, hbody, hanswer⟩

/-- Compiling an extension stores the extended object. -/
theorem contains_of_extend (object : P.isObject = true) (plain : P.Plain)
    (named : P.refId? = some name) {fields : List (String × Schema)}
    (h : (P.extend fields).site.compile dialect reply store = .ok (answer, after)) :
    after.contains name = true := by
  have hchild : P.site ∈ (P.extend fields).site.children := by
    rw [Site.children_eq (plain.extend object fields).override?]
    show P.site ∈ ((P.extend fields).shape false).children
    rw [shape_of_linked (isObject_extend object fields) (link?_extend_named object named fields)]
    exact List.mem_append_right _ List.mem_cons_self
  exact Site.contains_of_names h ⟨P.site, .child hchild, named⟩

end Schema

/-- An extension requires what is required of the object that it extends, and what it demands beyond
that. At every point of a generation, and read at any later one, the reference and the object beside
it require the keys that the extension demands and the extended object does not, together with those
that are required where the extended object is stored: the keys that it demands, if it extends
nothing itself. So what is required is what the extension demands just in case it demands all that
the extended object does. -/
theorem extension_requires {dialect : Dialect} {admitted : Definition → Prop} {P : Schema}
    {name : String} (object : P.isObject = true) (named : P.refId? = some name) (plain : P.Plain)
    (respects : ∀ d, admitted d → ∀ s ∈ d.schemas, s.Respects [P])
    {generation : Generation} (h : Generation.Leads dialect admitted {} generation)
    (fields : List (String × Schema)) (own : (P.extend fields).Respects [P])
    {reply : Reply} {answer : Fragment} {after : Store Fragment}
    (hcompile : (P.extend fields).site.compile dialect reply generation.schemas
      = .ok (answer, after)) :
    ∃ component, after.get? name = some component ∧ ∀ later, after ≤ later →
      (∀ key, later.Requires answer key
          ↔ later.Requires component key ∨ (P.extend fields).Demands key ∧ ¬ P.Demands key)
        ∧ (∀ key, later.Requires component key ↔ P.Imposes later key)
        ∧ (P.link? = none →
          ((∀ key, later.Requires answer key ↔ (P.extend fields).Demands key)
            ↔ ∀ key, P.Demands key → (P.extend fields).Demands key)) := by
  obtain ⟨component, hget⟩ :=
    Store.exists_get?_of_contains (Schema.contains_of_extend object plain named hcompile)
  have hlink := Schema.link?_extend_named object named fields
  have hkeys := (plain.extend object fields).keys
  have hpresents := Schema.presents_of_respects object plain own
  have hbears : after.Bears P := hpresents.moves object (.refl _) reply _ _ _ hcompile
    (h.bears object plain respects)
  have hcomponent : ∀ later key, Store.Requires later component key ↔ P.Imposes later key :=
    hbears name component hget named
  obtain ⟨body, hbody, rfl⟩ := Schema.answer_extend object plain fields hcompile
  refine ⟨component, hget, fun later hle => ?_⟩
  have hanswer (key : String) :
      later.Requires (Fragment.overlay body (P.extend fields).documentKeys) key
        ↔ later.Requires component key ∨ (P.extend fields).Demands key ∧ ¬ P.Demands key := by
    rw [Store.requires_overlay_iff hkeys,
      Schema.requires_shape (Schema.isObject_extend object fields) hbody later,
      Schema.imposes_of_linked hlink, Store.requires_toSchema_iff, Schema.core_of_isObject object]
    simp [Store.get?_of_le hle hget]
  refine ⟨hanswer, hcomponent later, fun hunlinked => ?_⟩
  have hparent (key : String) : later.Requires component key ↔ P.Demands key :=
    (hcomponent later key).trans (Schema.imposes_of_unlinked hunlinked)
  simp only [hanswer, hparent]
  constructor
  · exact fun hsame key hdemands => (hsame key).mp (Or.inl hdemands)
  · intro hall key
    constructor
    · rintro (hdemands | ⟨hdemands, _⟩)
      · exact hall key hdemands
      · exact hdemands
    · exact fun hdemands => (em (P.Demands key)).imp_right fun hnot => ⟨hdemands, hnot⟩

/-- A key that the extended object demands stays required where the extension makes it optional. -/
theorem demand_outlives_override :
    let text := Schema.ofKind (.string [])
    let base := (Schema.object [("x", text)]).named "Base"
    let leaf := base.extend [("x", text.optional)]
    let whole : Fragment := [("type", .string "object"),
      ("properties", .object [("x", .object [("type", .string "string")])]),
      ("required", .strings ["x"])]
    let own : Fragment := [("type", .string "object"), ("properties", .object [])]
    let schemas : Store Fragment := ⟨[("Base", whole)]⟩
    (base.isObject = true ∧ base.refId? = some "Base" ∧ base.Plain ∧ leaf.Respects [base])
      ∧ leaf.site.compile .types .reference {} = .ok (Fragment.referenceAnd "Base" own, schemas)
      ∧ schemas.Requires (Fragment.referenceAnd "Base" own) "x" ∧ ¬ leaf.Demands "x" := by
  intro text base leaf whole own schemas
  have hplain : base.Plain := by
    intro given hgiven
    cases hgiven
  have htext : text.Respects [base] := Schema.respects_ofKind rfl
  have hbase : base.Respects [base] := by
    refine Schema.respects_self fun c hc => ?_
    rw [List.mem_singleton.mp (show c ∈ [text] from hc)]
    exact htext
  have hoptional : text.optional.Respects [base] := by
    refine .of_children (fun level _ name _ hown => ?_) fun c hc => ?_
    · cases hown
    · rw [List.mem_singleton.mp (show c ∈ [text] from hc)]
      exact htext
  have hleaf : leaf.Respects [base] := by
    refine hbase.extend fun e he => ?_
    rw [List.mem_singleton.mp he]
    exact hoptional
  refine ⟨⟨rfl, rfl, hplain, hleaf⟩, rfl, ?_, ?_⟩
  · refine Store.requires_referenceAnd_iff.mpr (Or.inl (Store.requires_toSchema_iff.mpr ?_))
    exact ⟨whole, rfl, .itself ⟨[.string "x"], by simp [whole, Json.strings], List.mem_cons_self⟩⟩
  · rintro ⟨field, hmem, hdemanded⟩
    have hfield : ("x", field) ∈ [("x", text.optional)] := hmem
    cases List.mem_singleton.mp hfield
    cases hdemanded

/-- An object and an extension of it by one more field: both keys are required, as the extension
demands them. -/
theorem extension_requires_both_keys :
    let text := Schema.ofKind (.string [])
    let base := (Schema.object [("x", text)]).named "Base"
    let leaf := base.extend [("y", text)]
    let written : Json := .object [("type", .string "string")]
    let object (key : String) : Fragment := [("type", .string "object"),
      ("properties", .object [(key, written)]), ("required", .strings [key])]
    let schemas : Store Fragment := ⟨[("Base", object "x")]⟩
    leaf.site.compile .types .reference {}
        = .ok (Fragment.referenceAnd "Base" (object "y"), schemas)
      ∧ ∀ key, schemas.Requires (Fragment.referenceAnd "Base" (object "y")) key
          ↔ leaf.Demands key := by
  intro text base leaf written object schemas
  have hplain : base.Plain := by
    intro given hgiven
    cases hgiven
  have htext : text.Respects [base] := Schema.respects_ofKind rfl
  have hbase : base.Respects [base] := by
    refine Schema.respects_self fun c hc => ?_
    rw [List.mem_singleton.mp (show c ∈ [text] from hc)]
    exact htext
  have hleaf : leaf.Respects [base] := by
    refine hbase.extend fun e he => ?_
    rw [List.mem_singleton.mp he]
    exact htext
  have hcompile : leaf.site.compile .types .reference {}
      = .ok (Fragment.referenceAnd "Base" (object "y"), schemas) := rfl
  have hstart : Generation.Leads .types (fun _ => False) {} {} := .refl
  have hadmitted : ∀ d : Definition, False → ∀ s ∈ d.schemas, s.Respects [base] := fun _ h => h.elim
  have hnamed : base.refId? = some "Base" := rfl
  obtain ⟨_, _, hread⟩ :=
    extension_requires rfl hnamed hplain hadmitted hstart [("y", text)] hleaf hcompile
  refine ⟨hcompile, ((hread schemas (le_refl schemas)).2.2 rfl).mpr ?_⟩
  rintro key ⟨field, hmem, hdemanded⟩
  exact ⟨field, List.mem_append_left _ hmem, hdemanded⟩

/-! ## The object beside the extended one -/

/-- From a store on, a computation always comes to the same end, and stores nothing. -/
def Compile.SettledAt {α : Type} (c : Compile α) (a : α) (store : Store Fragment) : Prop :=
  ∀ later, store ≤ later → c later = .ok (a, later)

theorem Compile.SettledAt.of_le {α : Type} {c : Compile α} {a : α} {store after : Store Fragment}
    (h : c.SettledAt a store) (hle : store ≤ after) : c.SettledAt a after :=
  fun later hlater => h later (le_trans hle hlater)

/-- What a settled computation ends with is what it settled for. -/
theorem Compile.SettledAt.eq {α : Type} {c : Compile α} {a b : α} {store after : Store Fragment}
    (h : c.SettledAt a store) (hrun : c store = .ok (b, after)) : b = a ∧ after = store := by
  rw [h store (le_refl store)] at hrun
  cases hrun
  exact ⟨rfl, rfl⟩

/-- When a site has been compiled, its children are settled. -/
theorem Site.settledAt_children {dialect : Dialect} {t c : Site} (hc : c ∈ t.children) (reply : Reply)
    {store after : Store Fragment} {answer : Fragment}
    (h : t.compile dialect reply store = .ok (answer, after)) :
    ∃ settled, (c.compile dialect .reference).SettledAt settled after := by
  have mono {store after : Store Fragment} (hle : store ≤ after)
      (h : ∃ settled, (c.compile dialect .reference).SettledAt settled store) :
      ∃ settled, (c.compile dialect .reference).SettledAt settled after := by
    obtain ⟨settled, hsettled⟩ := h
    exact ⟨settled, hsettled.of_le hle⟩
  exact includes_compile (Compile.inclusive_attains mono) hc
    (fun reply => (c.settles reply .reference).2) _ _ _ h

namespace Shape

variable {dialect : Dialect} {store after : Store Fragment}

theorem settledAt_compileProperties {properties : List (String × Site)}
    (h : ∀ c ∈ properties.map (·.2),
      ∃ settled, (c.compile dialect .reference).SettledAt settled store) :
    ∃ compiled, (compileProperties dialect properties).SettledAt compiled store := by
  induction properties with
  | nil => exact ⟨[], fun later _ => by rw [compileProperties]; rfl⟩
  | cons first rest ih =>
    obtain ⟨key, site⟩ := first
    obtain ⟨settled, hsite⟩ := h site List.mem_cons_self
    obtain ⟨compiled, hrest⟩ := ih fun c hc => h c (List.mem_cons_of_mem _ hc)
    refine ⟨(key, .object settled) :: compiled, fun later hle => ?_⟩
    rw [compileProperties, Compile.bind_apply_ok (hsite later hle),
      Compile.bind_apply_ok (hrest later hle)]
    rfl

theorem settles_compileAdditional (additional : Additional Site) :
    Compile.Settles (compileAdditional dialect additional) (compileAdditional dialect additional) :=
  compileAdditional_of_sites Compile.parallel_settles.toChained fun c _ => c.settles .reference .reference

/-- Whether there is something to say about other keys is not a matter of the state. -/
theorem isSome_compileAdditional {additional : Additional Site} {value value' : Option Json}
    {store' after' : Store Fragment}
    (h : compileAdditional dialect additional store = .ok (value, after))
    (h' : compileAdditional dialect additional store' = .ok (value', after')) :
    value.isSome = value'.isSome := by
  cases additional with
  | unspecified | forbidden =>
    rw [compileAdditional] at h h'
    rw [(Compile.of_pure_ok h).1, (Compile.of_pure_ok h').1]
  | schema site =>
    rw [compileAdditional] at h h'
    obtain ⟨_, _, _, h⟩ := Compile.of_bind_ok h
    obtain ⟨_, _, _, h'⟩ := Compile.of_bind_ok h'
    rw [(Compile.of_pure_ok h).1, (Compile.of_pure_ok h').1]
    rfl

end Shape

/-- What an extension writes beside the object that it extends, where compiling the extension leads
from one store to another: the properties that are not the same in what the other object's have
settled for, and the required keys that the other object does not demand. What the other object says
about other keys is said again, and is the same once it has been compiled before. -/
structure Schema.Supplements (dialect : Dialect) (leaf base : Schema) (store after : Store Fragment)
    (own : Fragment) : Prop where
  properties : ∃ compiled mid inherited properties,
    Shape.compileProperties dialect leaf.members.properties store = .ok (compiled, mid)
      ∧ (Shape.compileProperties dialect base.members.properties).SettledAt inherited after
      ∧ Entries.get? own "properties" = some (.object properties)
      ∧ ∀ e, e ∈ properties ↔ e ∈ compiled
        ∧ ∀ value, Entries.get? inherited e.1 = some value → value.same e.2 = false
  required : ∀ key, own.Demands key ↔ leaf.Demands key ∧ ¬ base.Demands key
  additional : ∃ theirs,
    (Shape.compileAdditional dialect base.members.additional).SettledAt theirs after
      ∧ (Entries.get? own "additionalProperties").isSome = theirs.isSome
      ∧ ∀ earlier value mid, mid ≤ store →
        Shape.compileAdditional dialect base.members.additional earlier = .ok (value, mid) →
        Entries.get? own "additionalProperties" = theirs

theorem Schema.additional_members_extend (P : Schema) (fields : List (String × Schema)) :
    (P.extend fields).members.additional = P.members.additional := by
  obtain ⟨kind, description, label⟩ := P
  cases kind <;> rfl

/-- The properties of an object are compiled when the object is. -/
theorem Schema.Plain.mem_children {P : Schema} (plain : P.Plain) (object : P.isObject = true) {c : Site}
    (hc : c ∈ P.members.properties.map (·.2)) : c ∈ P.site.children := by
  rw [Site.children_eq plain.override?]
  show c ∈ (P.shape false).children
  cases hlink : P.link? with
  | none =>
    rw [shape_of_unlinked object hlink]
    exact List.mem_append_left _ hc
  | some parent =>
    rw [shape_of_linked object hlink]
    exact List.mem_append_left _ (List.mem_append_left _ hc)

theorem Fragment.get?_allOf_overlay {name : String} {own written : Fragment}
    (hwritten : "allOf" ∉ Entries.keys written) :
    Entries.get? (overlay (referenceAnd name own) written) "allOf"
      = some (.array [.object (Reference.toSchema name), .object own]) := by
  have hwhole : (Entries.keys (referenceAnd name own)).Nodup := List.nodup_singleton _
  have hdistinct : (Entries.keys (overlay (referenceAnd name own) written)).Nodup :=
    Entries.nodup_keys_filter (Entries.nodup_keys_extend hwhole written) _
  exact Entries.get?_of_mem hdistinct ((mem_overlay_iff hwritten rfl).mpr List.mem_cons_self)

/-- What an extension of a named object becomes is a reference to the object and an object beside it.
Of the properties and the required keys, the latter has those that the extended object does not
have. But it has `additionalProperties` wherever the extended object has, and has the same if that has
been compiled before, which is always so of an object that allows no other keys. -/
theorem extension_supplements {dialect : Dialect} {P : Schema} {name : String}
    (object : P.isObject = true) (named : P.refId? = some name) (plain : P.Plain)
    (fields : List (String × Schema)) {reply : Reply} {store after : Store Fragment}
    {answer : Fragment}
    (h : (P.extend fields).site.compile dialect reply store = .ok (answer, after)) :
    ∃ own, Entries.get? answer "allOf"
        = some (.array [.object (Reference.toSchema name), .object own])
      ∧ (P.extend fields).Supplements dialect P store after own := by
  have hallOf : "allOf" ∉ Entries.keys (P.extend fields).documentKeys := fun hmem =>
    absurd ((plain.extend object fields).keys hmem) (by decide)
  obtain ⟨body, hbody, rfl⟩ := Schema.answer_extend object plain fields h
  rw [Schema.shape_of_linked (Schema.isObject_extend object fields)
    (Schema.link?_extend_named object named fields), Shape.compile] at hbody
  obtain ⟨compiled, first, hcompiled, hbody⟩ := Compile.of_bind_ok hbody
  obtain ⟨others, second, hothers, hbody⟩ := Compile.of_bind_ok hbody
  obtain ⟨_, third, hparent, hbody⟩ := Compile.of_bind_ok hbody
  obtain ⟨inherited, fourth, hinherited, hbody⟩ := Compile.of_bind_ok hbody
  obtain ⟨rfl, rfl⟩ := Compile.of_pure_ok hbody
  dsimp only at hinherited hparent ⊢
  rw [Schema.core_of_isObject object] at hinherited ⊢
  rw [Schema.additional_members_extend] at hothers
  refine ⟨_, Fragment.get?_allOf_overlay hallOf, ?_, ?_, ?_⟩
  · -- Compiling the extended object has settled its properties already.
    obtain ⟨settled, hsettled⟩ := Shape.settledAt_compileProperties fun c hc =>
      Site.settledAt_children (plain.mem_children object hc) .fragment hparent
    obtain ⟨rfl, rfl⟩ := hsettled.eq hinherited
    refine ⟨compiled, first, inherited, _, hcompiled, hsettled, Shape.get?_objectFragment_properties,
      fun e => ?_⟩
    rw [Shape.ownProperties, List.mem_filter]
    refine and_congr_right fun _ => ?_
    cases Entries.get? inherited e.1 <;> simp
  · intro key
    rw [Shape.demands_objectFragment_iff, List.mem_filter, ← Schema.mem_required_members,
      ← Schema.mem_required_members]
    simp
  · have hsecond : second ≤ after :=
      le_trans (P.site.grows_compile .fragment _ _ _ hparent)
        ((Shape.inTurn_compileProperties _).grows _ _ _ hinherited)
    have hfirst : store ≤ first := (Shape.inTurn_compileProperties _).grows _ _ _ hcompiled
    obtain ⟨theirs, htheirs⟩ := (Shape.settles_compileAdditional _).2 _ _ _ hothers
    have hafter : (Shape.compileAdditional dialect P.members.additional).SettledAt theirs after :=
      fun later hle => htheirs later (le_trans hsecond hle)
    rw [Shape.get?_objectFragment_additional]
    refine ⟨theirs, hafter, Shape.isSome_compileAdditional hothers (hafter after (le_refl after)), ?_⟩
    intro earlier value mid hmid hvalue
    obtain ⟨settled, hsettled⟩ := (Shape.settles_compileAdditional _).2 _ _ _ hvalue
    have hthen := hothers.symm.trans (hsettled first (le_trans hmid hfirst))
    have hnow := (hafter after (le_refl after)).symm.trans
      (hsettled after (le_trans hmid (le_trans hfirst (le_trans
        ((Shape.inTurn_compileAdditional _).grows _ _ _ hothers) hsecond))))
    cases hthen
    cases hnow
    rfl

/-- An object that allows no other keys, and an extension of it by one more field: that no other keys
are allowed is said beside the reference again, where it shuts out the fields of the extended
object. -/
theorem strictness_said_again :
    let text := Schema.ofKind (.string [])
    let base := ((Schema.object [("x", text)]).unknownKeys .strict).named "Base"
    let leaf := base.extend [("y", text)]
    let written : Json := .object [("type", .string "string")]
    let closed (key : String) : Fragment := [("type", .string "object"),
      ("properties", .object [(key, written)]), ("required", .strings [key]),
      ("additionalProperties", .bool false)]
    let schemas : Store Fragment := ⟨[("Base", closed "x")]⟩
    leaf.site.compile .types .reference {}
        = .ok (Fragment.referenceAnd "Base" (closed "y"), schemas)
      ∧ leaf.Supplements .types base {} schemas (closed "y")
      ∧ (Shape.compileAdditional .types base.members.additional).SettledAt (some (.bool false))
          schemas := by
  intro text base leaf written closed schemas
  have hplain : base.Plain := by
    intro given hgiven
    cases hgiven
  have hnamed : base.refId? = some "Base" := rfl
  have hcompile : leaf.site.compile .types .reference {}
      = .ok (Fragment.referenceAnd "Base" (closed "y"), schemas) := rfl
  have hothers : Shape.compileAdditional .types base.members.additional {}
      = .ok (some (.bool false), {}) := rfl
  obtain ⟨own, hown, hsupplements⟩ :=
    extension_supplements rfl hnamed hplain [("y", text)] hcompile
  cases hown
  obtain ⟨theirs, hsettled, _, hsame⟩ := hsupplements.additional
  cases hsame {} _ _ (le_refl _) hothers
  exact ⟨hcompile, hsupplements, hsettled⟩

end OpenApi
