/-
# OpenApi.Proofs.ExtensionChains -- an extended object keeps its properties and gains no others

An object that extends a named one is written as a reference to it and a part of its own, from
which the properties that have become the same on both sides are left out. The object it extends
may be written in this way too, and may have been stored long before, by another use of it. What
the whole says about properties is read off by following the parts and the references
(`Store.Declares`).

A chain of such objects (`Schema.Chain`) declares what it should at every level: a property that is
left out is one of the object above, whose fields are all fields below as well. For the levels that
are stored this is an invariant of every run, provided that nothing else is compiled under their
identifiers (`Store.Sound`).
-/
import OpenApi.Proofs.Acyclicity
import OpenApi.Proofs.Composition
import OpenApi.Proofs.RequestParameters
import OpenApi.Proofs.Wrapping

namespace OpenApi

/-! ## Declared properties -/

/-- A fragment declares a property: among its own, in one of its parts, or in the named schema that
it refers to. -/
inductive Store.Declares (store : Store Fragment) : Fragment → String → Prop
  | property {fragment properties : Fragment} {key : String} :
      ("properties", .object properties) ∈ fragment → key ∈ Entries.keys properties →
      Declares store fragment key
  | part {fragment part : Fragment} {parts : List Json} {key : String} :
      ("allOf", .array parts) ∈ fragment → .object part ∈ parts → Declares store part key →
      Declares store fragment key
  | target {fragment stored : Fragment} {name key : String} :
      ("$ref", .string (Reference.schemaPath name)) ∈ fragment → store.get? name = some stored →
      Declares store stored key → Declares store fragment key

/-- The keys of a fragment that declare properties. -/
def Fragment.declaringKeys : List String := ["properties", "allOf", "$ref"]

/-- The keys that say what an object is made of: those, and `type`, which as a document key stands
in for everything that is compiled. -/
def Fragment.formingKeys : List String := "type" :: declaringKeys

/-- A fragment declares exactly the given properties, now and whatever is stored later. -/
def Store.Spells (store : Store Fragment) (fragment : Fragment) (keys : List String) : Prop :=
  ∀ later, store ≤ later → ∀ key, later.Declares fragment key ↔ key ∈ keys

namespace Store

variable {store after : Store Fragment} {fragment fragment' part stored delta : Fragment}
  {name key : String} {keys : List String}

/-- A property is declared among a fragment's own, or where the fragment's parts and references lead
to. -/
theorem declares_iff_composes :
    store.Declares fragment key
      ↔ store.Composes (fun part => ∃ properties, ("properties", .object properties) ∈ part
          ∧ key ∈ Entries.keys properties) fragment := by
  constructor
  · intro h
    induction h with
    | property hmem hkey => exact .itself ⟨_, hmem, hkey⟩
    | part hmem hpart _ ih => exact .part hmem hpart ih
    | target hmem hget _ ih => exact .target hmem hget ih
  · intro h
    induction h with
    | itself hown =>
      obtain ⟨properties, hmem, hkey⟩ := hown
      exact .property hmem hkey
    | part hmem hpart _ ih => exact .part hmem hpart ih
    | target hmem hget _ ih => exact .target hmem hget ih

/-- Only the declaring keys count, and null under one of them declares nothing. -/
theorem Declares.of_entries (h : store.Declares fragment key)
    (hsub : ∀ e ∈ fragment, e.1 ∈ Fragment.declaringKeys → e.2.isNull = false → e ∈ fragment') :
    store.Declares fragment' key := by
  have hcomposing : Fragment.composingKeys ⊆ Fragment.declaringKeys := List.subset_cons_self _ _
  refine declares_iff_composes.mpr ((declares_iff_composes.mp h).of_entries ?_ ?_)
  · rintro ⟨properties, hmem, hkey⟩
    exact ⟨properties, hsub _ hmem List.mem_cons_self rfl, hkey⟩
  · exact fun e he hkey => hsub e he (hcomposing hkey)

theorem declares_toSchema_iff :
    store.Declares (Reference.toSchema name) key
      ↔ ∃ stored, store.get? name = some stored ∧ store.Declares stored key := by
  simp only [declares_iff_composes]
  exact composes_toSchema_iff (by simp [Reference.toSchema, Reference.toPath])

theorem declares_referenceAnd_iff :
    store.Declares (Fragment.referenceAnd name part) key
      ↔ store.Declares (Reference.toSchema name) key ∨ store.Declares part key := by
  simp only [declares_iff_composes]
  exact composes_referenceAnd_iff (by simp [Fragment.referenceAnd])

theorem declares_referenceWith_iff :
    store.Declares (Fragment.referenceWith name delta) key
      ↔ store.Declares (Reference.toSchema name) key ∨ store.Declares delta key := by
  cases delta with
  | nil =>
    have hnone : ¬ store.Declares [] key := by
      intro h
      cases h with
      | property hmem _ | part hmem _ _ | target hmem _ _ => cases hmem
    exact (or_iff_left hnone).symm
  | cons first rest => exact declares_referenceAnd_iff

/-! ## Fragments that spell out properties -/

theorem Spells.of_le (h : store.Spells fragment keys) (hle : store ≤ after) :
    after.Spells fragment keys := fun later hlater => h later (le_trans hle hlater)

theorem Spells.of_entries (h : store.Spells fragment keys)
    (hsame : ∀ e, e.1 ∈ Fragment.declaringKeys → e.2.isNull = false →
      (e ∈ fragment' ↔ e ∈ fragment)) : store.Spells fragment' keys := by
  intro later hlater key
  rw [← h later hlater key]
  constructor
  · exact fun hkey => hkey.of_entries fun e he hdeclaring hvalue => (hsame e hdeclaring hvalue).mp he
  · exact fun hkey => hkey.of_entries fun e he hdeclaring hvalue => (hsame e hdeclaring hvalue).mpr he

theorem spells_toSchema (hget : store.get? name = some stored) (h : store.Spells stored keys) :
    store.Spells (Reference.toSchema name) keys := by
  intro later hlater key
  have hlaterGet := get?_of_le hlater hget
  rw [declares_toSchema_iff, ← h later hlater key]
  constructor
  · rintro ⟨other, hother, hkey⟩
    cases hlaterGet.symm.trans hother
    exact hkey
  · exact fun hkey => ⟨stored, hlaterGet, hkey⟩

/-- A delta that declares nothing new leaves the properties of what is stored. -/
theorem spells_referenceWith (hget : store.get? name = some stored) (h : store.Spells stored keys)
    (hdelta : ∀ later, store ≤ later → ∀ key, later.Declares delta key → key ∈ keys) :
    store.Spells (Fragment.referenceWith name delta) keys := by
  intro later hlater key
  rw [declares_referenceWith_iff, spells_toSchema hget h later hlater key]
  exact or_iff_left_of_imp (hdelta later hlater key)

/-- Document keys that declare nothing change nothing. -/
theorem Spells.overlay {body : Fragment} (h : store.Spells body keys) {written : Fragment}
    (hwritten : ∀ key ∈ Fragment.declaringKeys, key ∉ Entries.keys written) :
    store.Spells (Fragment.overlay body written) keys := by
  refine h.of_entries fun e hdeclaring hvalue => ?_
  exact Fragment.mem_overlay_iff (hwritten e.1 hdeclaring) hvalue

end Store

/-! ## What objects are compiled to -/

theorem Dialect.mem_typeKeys {dialect : Dialect} {type : Option Json} {nullable : Bool}
    {e : String × Json} (h : e ∈ dialect.typeKeys type nullable) :
    e.1 = "type" ∨ e.1 = "nullable" := by
  have hkey : e.1 ∈ Entries.keys (dialect.typeKeys type nullable) := List.mem_map_of_mem h
  cases dialect <;> cases type <;> cases nullable <;>
    simp_all [typeKeys, Entries.insertSome, Entries.insert, Entries.keys]

namespace Shape

variable {dialect : Dialect} {store : Store Fragment}

/-- What is compiled for properties stands under their keys. -/
theorem ends_keys_compileProperties (properties : List (String × Site)) :
    Compile.Ends (fun compiled => Entries.keys compiled = Entries.keys properties)
      (compileProperties dialect properties) := by
  induction properties with
  | nil =>
    rw [compileProperties]
    exact .pure rfl
  | cons first rest ih =>
    obtain ⟨key, site⟩ := first
    rw [compileProperties]
    refine .after fun fragment => ih.bind fun compiled hcompiled => .pure ?_
    show key :: Entries.keys compiled = key :: Entries.keys rest
    rw [hcompiled]

section Objects

variable (nullable : Bool) (default : Option Json) (properties : Fragment) (required : List String)
  (additional : Option Json)

theorem properties_mem_objectFragment : ("properties", .object properties)
    ∈ objectFragment dialect nullable default properties required additional := by
  apply Entries.mem_of_get?
  unfold objectFragment
  rw [Entries.get?_insertSome_of_ne _ _ (by decide : "properties" ≠ "additionalProperties")]
  split
  · exact Entries.get?_insert_self _ _ _
  · rw [Entries.get?_insert_of_ne _ _ (by decide : "properties" ≠ "required")]
    exact Entries.get?_insert_self _ _ _

/-- Nothing else in an object declares properties. -/
theorem eq_properties_of_mem_objectFragment {e : String × Json}
    (h : e ∈ objectFragment dialect nullable default properties required additional)
    (hdeclaring : e.1 ∈ Fragment.declaringKeys) : e = ("properties", .object properties) := by
  have hother {key : String} (hkey : key ∉ Fragment.declaringKeys) : e.1 ≠ key := fun heq =>
    hkey (heq ▸ hdeclaring)
  unfold objectFragment at h
  dsimp only at h
  rcases Entries.mem_insertSome h with h | h
  · obtain ⟨value, _, rfl⟩ := Option.map_eq_some_iff.mp h
    exact absurd rfl (hother (by decide : "additionalProperties" ∉ Fragment.declaringKeys))
  · have hshaped : e = ("properties", .object properties) ∨ e ∈ Fragment.withDefault
        (dialect.typeKeys (some (.string "object")) nullable) default := by
      split at h
      · exact Entries.mem_insert h
      · rcases Entries.mem_insert h with rfl | h
        · exact absurd rfl (hother (by decide : "required" ∉ Fragment.declaringKeys))
        · exact Entries.mem_insert h
    rcases hshaped with rfl | htyped
    · rfl
    · rcases Fragment.mem_withDefault htyped with hdefault | htyped
      · exact absurd hdefault (hother (by decide))
      · rcases Dialect.mem_typeKeys htyped with htype | hnullable
        · exact absurd htype (hother (by decide))
        · exact absurd hnullable (hother (by decide))

/-- An object declares the properties that it was given, and no others. -/
theorem spells_objectFragment :
    store.Spells (objectFragment dialect nullable default properties required additional)
      (Entries.keys properties) := by
  intro later _ key
  constructor
  · intro h
    cases h with
    | property hproperties hkey =>
      cases eq_properties_of_mem_objectFragment _ _ _ _ _ hproperties
        (by decide : "properties" ∈ Fragment.declaringKeys)
      exact hkey
    | part hparts _ _ =>
      have hsame := eq_properties_of_mem_objectFragment _ _ _ _ _ hparts
        (by decide : "allOf" ∈ Fragment.declaringKeys)
      simp at hsame
    | target htarget _ _ =>
      have hsame := eq_properties_of_mem_objectFragment _ _ _ _ _ htarget
        (by decide : "$ref" ∈ Fragment.declaringKeys)
      simp at hsame
  · exact .property (properties_mem_objectFragment _ _ _ _ _)

end Objects

/-- The own properties of an extension are some of its properties, and any other one is found on
the other side as well. -/
theorem mem_keys_ownProperties {properties base : Fragment} {key : String}
    (h : key ∈ Entries.keys properties) :
    key ∈ Entries.keys (ownProperties properties base) ∨ key ∈ Entries.keys base := by
  obtain ⟨e, he, rfl⟩ := List.mem_map.mp h
  cases hbase : Entries.get? base e.1 with
  | none =>
    refine Or.inl (List.mem_map_of_mem (List.mem_filter.mpr ⟨he, ?_⟩))
    rw [hbase]
    rfl
  | some value => exact Or.inr (Entries.contains_iff_mem_keys.mp (by rw [Entries.contains, hbase]; rfl))

theorem keys_ownProperties_subset (properties base : Fragment) :
    Entries.keys (ownProperties properties base) ⊆ Entries.keys properties :=
  List.map_subset _ (List.filter_subset_self _)

variable {members : Members Site} {nullable : Bool} {default : Option Json} {body : Fragment}
  {after : Store Fragment}

theorem spells_compile_object
    (h : (Shape.object members).compile dialect nullable default store = .ok (body, after)) :
    after.Spells body (Entries.keys members.properties) := by
  obtain ⟨properties, required, additional⟩ := members
  rw [compile] at h
  obtain ⟨compiled, mid, hcompiled, h⟩ := Compile.of_bind_ok h
  obtain ⟨others, mid', _, h⟩ := Compile.of_bind_ok h
  rw [(Compile.of_pure_ok h).1, ← ends_keys_compileProperties properties _ _ _ hcompiled]
  exact spells_objectFragment nullable default compiled required others

/-- An extension declares all of its properties if those of the object that it extends are among
them, and are what is declared where that object is stored. -/
theorem spells_compile_extension {name : String} {parent : Site} {base : List (String × Site)}
    {baseRequired : List String} (hname : parent.refId = some name)
    (hbase : Entries.keys base ⊆ Entries.keys members.properties)
    (h : (Shape.extension members name parent base baseRequired).compile dialect nullable default
      store = .ok (body, after))
    (hstored : ∀ stored, after.get? name = some stored → after.Spells stored (Entries.keys base)) :
    after.Spells body (Entries.keys members.properties) := by
  obtain ⟨properties, required, additional⟩ := members
  rw [compile] at h
  obtain ⟨compiled, first, hcompiled, h⟩ := Compile.of_bind_ok h
  obtain ⟨others, second, _, h⟩ := Compile.of_bind_ok h
  obtain ⟨answer, third, hparent, h⟩ := Compile.of_bind_ok h
  obtain ⟨inherited, fourth, hinherited, h⟩ := Compile.of_bind_ok h
  obtain ⟨rfl, rfl⟩ := Compile.of_pure_ok h
  have hkeys := ends_keys_compileProperties properties _ _ _ hcompiled
  have hbaseKeys := ends_keys_compileProperties base _ _ _ hinherited
  -- The parent is stored once it is compiled, and nothing that comes after changes that.
  have hcontains : after.contains name = true :=
    Store.contains_of_le ((inTurn_compileProperties base).grows _ _ _ hinherited)
      (Site.contains_of_refId hparent hname)
  obtain ⟨stored, hget⟩ := Store.exists_get?_of_contains hcontains
  intro later hlater key
  have hown : after.Spells (objectFragment dialect nullable default
      (ownProperties compiled inherited) (required.filter fun key => !baseRequired.contains key)
      others) (Entries.keys (ownProperties compiled inherited)) :=
    spells_objectFragment nullable default _ _ others
  rw [Store.declares_referenceAnd_iff, Store.spells_toSchema hget (hstored stored hget) later hlater,
    hown later hlater]
  constructor
  · rintro (hkey | hkey)
    · exact hbase hkey
    · exact hkeys ▸ keys_ownProperties_subset compiled inherited hkey
  · intro hkey
    have hsplit : key ∈ Entries.keys (ownProperties compiled inherited)
        ∨ key ∈ Entries.keys inherited := mem_keys_ownProperties (hkeys.symm ▸ hkey)
    exact hsplit.symm.imp_left fun hinherited => hbaseKeys ▸ hinherited

end Shape

/-! ## Chains of extensions -/

namespace Schema

/-- The fields of an object. -/
def fields (s : Schema) : List (String × Schema) :=
  match s.kind with
  | .object fields _ _ => fields
  | _ => []

/-- The members of an object. -/
def members (s : Schema) : Members Site :=
  match s.kind with
  | .object fields treatment catchall =>
    ⟨fieldSites fields, requiredKeys fields, additional treatment catchall (optionSite catchall)⟩
  | _ => ⟨[], [], .unspecified⟩

/-- A schema is another one under a label and a description of its own: it accepts the same, and
extends the same object. -/
structure Relabels (t s : Schema) : Prop where
  kind : t.kind = s.kind
  link : t.link? = s.link?

/-- The levels of a chain, the last one first: an object with an identifier that extends nothing,
and then every object an extension of the one before it, labelled in any way. -/
inductive Chain : List Schema → Prop
  | base {s : Schema} :
      s.isObject = true → s.link? = none → s.refId?.isSome = true → Chain [s]
  | extend {s t : Schema} {levels : List Schema} (fields : List (String × Schema)) :
      Chain (s :: levels) → t.Relabels (s.extend fields) → Chain (t :: s :: levels)

section Labels

variable {s : Schema}

/-- An object that is named, annotated or described extends what it did. -/
theorem relabels_labelled (h : s.isObject = true) :
    (∀ refId, (s.named refId).Relabels s) ∧ (∀ metadata, (s.annotate metadata).Relabels s)
      ∧ ∀ text, (s.describe text).Relabels s := by
  obtain ⟨kind, description, label⟩ := s
  cases kind with
  | object =>
    rcases label with _ | ⟨_ | identity, metadata⟩ <;>
      exact ⟨fun _ => ⟨rfl, rfl⟩, fun _ => ⟨rfl, rfl⟩, fun _ => ⟨rfl, rfl⟩⟩
  | _ => cases h

theorem core_of_isObject (h : s.isObject = true) : s.core = s := by
  apply core_of_not_wrapped
  unfold isObject at h
  split at h
  · rename_i hkind
    rw [hkind]
    rfl
  · cases h

theorem visibleLabel_of_isObject (h : s.isObject = true) : s.visibleLabel = s.label := by
  rw [visibleLabel, core_of_isObject h]
  cases s.label <;> rfl

theorem isObject_extend (h : s.isObject = true) (fields : List (String × Schema)) :
    (s.extend fields).isObject = true := by
  obtain ⟨kind, description, label⟩ := s
  cases kind <;> first | rfl | cases h

theorem keys_fields_extend (h : s.isObject = true) (fields : List (String × Schema)) :
    Entries.keys s.fields ⊆ Entries.keys (s.extend fields).fields := by
  obtain ⟨kind, description, label⟩ := s
  cases kind with
  | object own treatment catchall =>
    intro key hkey
    have hcontains := Entries.contains_iff_mem_keys.mpr hkey
    exact Entries.contains_iff_mem_keys.mp (Entries.contains_extend.mpr (Or.inr hcontains))
  | _ => cases h

/-- An extension is linked to the object that it extends if that has an identifier, and else to
what that is linked to. -/
theorem link?_extend (h : s.isObject = true) (fields : List (String × Schema)) :
    (s.extend fields).link? = (s.refId?.map fun refId => ⟨refId, s⟩).or s.link? := by
  have hparent : s.identity?.bind (·.parent) = s.link? := by
    rw [identity?, visibleLabel_of_isObject h, link?]
  have hlink : (s.extend fields).link? = s.extensionLink := by
    obtain ⟨kind, description, label⟩ := s
    cases kind <;> first | rfl | cases h
  cases hrefId : s.refId? with
  | some refId =>
    rw [hlink, extensionLink, hrefId]
    rfl
  | none =>
    rw [hlink, extensionLink, hrefId, Option.map_none, Option.none_or]
    exact hparent

end Labels

/-! ## The shapes of levels -/

section Shapes

variable {s : Schema}

/-- An object has its own members, whether or not it extends another one. -/
theorem members_shape (h : s.isObject = true) :
    (s.shape false).properties = s.members.properties
      ∧ (s.shape false).required = s.members.required := by
  obtain ⟨kind, description, label⟩ := s
  cases kind with
  | object fields treatment catchall =>
    unfold shape
    split <;> exact ⟨rfl, rfl⟩
  | _ => cases h

/-- An object has its fields for properties. -/
theorem keys_members (s : Schema) : Entries.keys s.members.properties = Entries.keys s.fields := by
  unfold members fields
  split
  · exact keys_fieldSites _
  · rfl

theorem keys_properties_shape (h : s.isObject = true) :
    Entries.keys (s.shape false).properties = Entries.keys s.fields := by
  rw [(members_shape h).1, keys_members]

theorem shape_of_unlinked (h : s.isObject = true) (hlink : s.link? = none) :
    s.shape false = .object s.members := by
  obtain ⟨kind, description, label⟩ := s
  cases kind with
  | object fields treatment catchall =>
    unfold shape
    split
    · cases hlink
    · rfl
  | _ => cases h

/-- An extension is taken against the properties and the required keys of the object that it
extends, if that is an object under its wrappers, and else against none. -/
theorem shape_of_linked {parent : Parent Schema} (h : s.isObject = true)
    (hlink : s.link? = some parent) :
    s.shape false = .extension s.members parent.refId parent.schema.site
      parent.schema.core.members.properties parent.schema.core.members.required := by
  have hbase : (if parent.schema.core.isObject then
        ((parent.schema.shape false).properties, (parent.schema.shape false).required)
      else ([], []))
      = (parent.schema.core.members.properties, parent.schema.core.members.required) := by
    cases hcore : parent.schema.core.isObject with
    | true =>
      have hmembers := members_shape hcore
      rw [if_pos rfl, ← hmembers.1, ← hmembers.2, shape_core]
    | false =>
      rw [if_neg Bool.false_ne_true]
      unfold members
      split
      · rename_i hkind
        rw [isObject, hkind] at hcore
        cases hcore
      · rfl
  obtain ⟨kind, description, label⟩ := s
  cases kind with
  | object fields treatment catchall =>
    rcases label with _ | ⟨_ | ⟨own, _ | link⟩, metadata⟩
    · cases hlink
    · cases hlink
    · cases hlink
    · cases hlink
      show extensionShape _ _ parent.schema (parent.schema.shape false) = _
      unfold extensionShape
      rw [hbase]
      rfl
  | _ => cases h

end Shapes

namespace Chain

variable {levels : List Schema} {s : Schema}

theorem isObject (chain : Chain levels) (hs : s ∈ levels) : s.isObject = true := by
  induction chain generalizing s with
  | base hobject _ _ =>
    rw [List.mem_singleton.mp hs]
    exact hobject
  | @extend above level rest fields _ hrelabels ih =>
    rcases List.mem_cons.mp hs with hs | hs
    · have hextends := isObject_extend (ih List.mem_cons_self) fields
      rw [hs, Schema.isObject, hrelabels.kind]
      exact hextends
    · exact ih hs

/-- Every level of a chain extends nothing, or is linked to a level above it, whose fields are all
among its own. -/
theorem link (chain : Chain levels) (hs : s ∈ levels) :
    s.link? = none ∧ s.refId?.isSome = true
      ∨ ∃ name, ∃ parent ∈ levels, s.link? = some ⟨name, parent⟩ ∧ parent.refId? = some name
        ∧ Entries.keys parent.fields ⊆ Entries.keys s.fields := by
  induction chain generalizing s with
  | base _ hlink hrefId =>
    rw [List.mem_singleton.mp hs]
    exact Or.inl ⟨hlink, hrefId⟩
  | @extend above level rest fields chain hrelabels ih =>
    rcases List.mem_cons.mp hs with rfl | hs
    · have hobject := chain.isObject List.mem_cons_self
      have hfields : Entries.keys above.fields ⊆ Entries.keys s.fields := by
        have hextended := keys_fields_extend hobject fields
        rw [Schema.fields, Schema.fields, ← hrelabels.kind] at hextended
        exact hextended
      have hlink := hrelabels.link.trans (link?_extend hobject fields)
      cases hrefId : above.refId? with
      | some name =>
        rw [hrefId] at hlink
        exact Or.inr ⟨name, above, List.mem_cons_of_mem _ List.mem_cons_self, hlink, hrefId, hfields⟩
      | none =>
        rw [hrefId] at hlink
        -- A level without an identifier is not the first, so it passes on the link that it has.
        rcases ih List.mem_cons_self with ⟨_, hsome⟩ | ⟨name, parent, hparent, habove, hname, hkeys⟩
        · rw [hrefId] at hsome
          cases hsome
        · exact Or.inr ⟨name, parent, List.mem_cons_of_mem _ hparent, hlink.trans habove, hname,
            fun key hkey => hfields (hkeys hkey)⟩
    · refine (ih hs).imp_right ?_
      rintro ⟨name, parent, hparent, hfound⟩
      exact ⟨name, parent, List.mem_cons_of_mem _ hparent, hfound⟩

/-- What a level is settled to: an object with its fields, or an extension of a level above it,
whose fields are among its own. -/
theorem shape (chain : Chain levels) (hs : s ∈ levels) :
    (∃ members, s.shape false = .object members)
      ∨ ∃ name, ∃ parent ∈ levels, parent.refId? = some name
          ∧ Entries.keys parent.fields ⊆ Entries.keys s.fields
          ∧ ∃ members, s.shape false = .extension members name parent.site
            (parent.shape false).properties (parent.shape false).required := by
  have hobject := chain.isObject hs
  rcases chain.link hs with ⟨hlink, _⟩ | ⟨name, parent, hparent, hlink, hname, hkeys⟩
  · exact Or.inl ⟨_, shape_of_unlinked hobject hlink⟩
  · have hparentObject := chain.isObject hparent
    have hbase := members_shape hparentObject
    refine Or.inr ⟨name, parent, hparent, hname, hkeys, s.members, ?_⟩
    rw [shape_of_linked hobject hlink, core_of_isObject hparentObject, hbase.1, hbase.2]

end Chain

end Schema

/-! ## What is compiled for a chain -/

/-- A site that has the identifier of a level is shaped like the level, and its document keys do not
say what it is made of. -/
def Site.StandsIn (levels : List Schema) (t : Site) : Prop :=
  ∀ level ∈ levels, ∀ name, level.refId? = some name → t.refId = some name →
    t.shape = level.shape false ∧ ∀ key ∈ Fragment.formingKeys, key ∉ Entries.keys t.keys

/-- What is stored under the identifier of a level declares the fields of the level. -/
def Store.Sound (levels : List Schema) (store : Store Fragment) : Prop :=
  ∀ level ∈ levels, ∀ name stored, level.refId? = some name → store.get? name = some stored →
    store.Spells stored (Entries.keys level.fields)

theorem Store.sound_iff {levels : List Schema} {store : Store Fragment} :
    store.Sound levels ↔ ∀ name stored, store.get? name = some stored →
      ∀ level ∈ levels, level.refId? = some name → store.Spells stored (Entries.keys level.fields) :=
  ⟨fun h name stored hget level hlevel hname => h level hlevel name stored hname hget,
    fun h level hlevel name stored hname hget => h name stored hget level hlevel hname⟩

namespace Schema.Chain

variable {levels : List Schema} (chain : Chain levels) {dialect : Dialect} {level : Schema}
  {t : Site} {store after : Store Fragment} {body answer : Fragment}

include chain

/-- The object compiled for a level declares the fields of the level. -/
theorem spells_body (hlevel : level ∈ levels) (hshape : t.shape = level.shape false)
    (hkeys : ∀ key ∈ Fragment.formingKeys, key ∉ Entries.keys t.keys) {beside : Bool}
    (h : t.body dialect beside store = .ok (body, after)) (sound : after.Sound levels) :
    after.Spells body (Entries.keys level.fields) := by
  have hoverride : t.override? = none := Entries.get?_eq_none_iff.mpr (hkeys "type" List.mem_cons_self)
  have hfields := keys_properties_shape (chain.isObject hlevel)
  rw [Site.body_of_shape beside hoverride, hshape] at h
  rw [← hfields]
  rcases chain.shape hlevel with ⟨members, hmembers⟩ | ⟨name, parent, hparent, hname, hsub, members,
    hmembers⟩
  · rw [hmembers] at h ⊢
    exact Shape.spells_compile_object h
  · have hbase := keys_properties_shape (chain.isObject hparent)
    rw [← hbase, ← hfields] at hsub
    rw [hmembers] at h hsub ⊢
    refine Shape.spells_compile_extension ((refId_site parent).trans hname) hsub h ?_
    intro stored hget
    rw [hbase]
    exact sound parent hparent name stored hname hget

/-- Compiling sites that stand for levels of a chain keeps what is stored sound. -/
theorem moves_compile (ht : ∀ u, t.Reaches u → u.StandsIn levels) (reply : Reply) :
    Compile.Moves (Store.Preserves (Store.Sound levels)) (t.compile dialect reply) := by
  have hstored : Compile.Moves
      (Store.Preserves fun store => ∀ name stored, store.get? name = some stored →
        ∀ level ∈ levels, level.refId? = some name → store.Spells stored (Entries.keys level.fields))
      (t.compile dialect reply) := by
    refine t.moves_stored (fun hle h level hlevel hname => (h level hlevel hname).of_le hle) reply ?_
    intro u hu name hown store body mid hbody kept level hlevel hname
    obtain ⟨hshape, hkeys⟩ := ht u hu level hlevel name hname hown
    have hdeclaring : ∀ key ∈ Fragment.declaringKeys, key ∉ Entries.keys u.keys := fun key hkey =>
      hkeys key (List.mem_cons_of_mem _ hkey)
    exact (chain.spells_body hlevel hshape hkeys hbody (Store.sound_iff.mpr kept)).overlay hdeclaring
  exact fun store answer after h sound =>
    Store.sound_iff.mpr (hstored store answer after h (Store.sound_iff.mp sound))

theorem moves_body (ht : ∀ u, t.Reaches u → u.StandsIn levels) (beside : Bool) :
    Compile.Moves (Store.Preserves (Store.Sound levels)) (t.body dialect beside) := by
  refine Site.body_of_children (Compile.moves_sequential (Store.Preserves.refl _)
    (Store.Preserves.trans _)) beside ?_ ?_
  · exact fun c hc => chain.moves_compile (fun u hu => ht u (.step hc hu)) .reference
  · exact fun c hc _ => chain.moves_compile (fun u hu => ht u (.step hc hu)) .fragment

/-- However a level is answered, the answer declares the fields of the level. -/
theorem spells_answer (hlevel : level ∈ levels) (hshape : t.shape = level.shape false)
    (hkeys : ∀ key ∈ Fragment.formingKeys, key ∉ Entries.keys t.keys)
    (hrefId : t.refId = level.refId?) (ht : ∀ u, t.Reaches u → u.StandsIn levels) {reply : Reply}
    (h : t.compile dialect reply store = .ok (answer, after)) (sound : store.Sound levels) :
    after.Spells answer (Entries.keys level.fields) := by
  have hdeclaring : ∀ key ∈ Fragment.declaringKeys, key ∉ Entries.keys t.keys := fun key hkey =>
    hkeys key (List.mem_cons_of_mem _ hkey)
  have hbody {beside : Bool} {body : Fragment} {mid : Store Fragment}
      (h : t.body dialect beside store = .ok (body, mid)) :
      mid.Sound levels ∧ mid.Spells body (Entries.keys level.fields) := by
    have hmid := chain.moves_body ht beside _ _ _ h sound
    exact ⟨hmid, chain.spells_body hlevel hshape hkeys h hmid⟩
  cases Site.compile_eq_ok_iff.mp h with
  | retyped _ _ hsaid =>
    obtain ⟨e, he, htype⟩ := List.mem_map.mp (Entries.contains_iff_mem_keys.mp hsaid)
    have hmem : "type" ∈ Entries.keys t.keys := htype ▸ List.mem_map_of_mem (List.mem_filter.mp he).1
    exact absurd hmem (hkeys "type" List.mem_cons_self)
  | @reused name stored body _ hname hget _ hend =>
    obtain ⟨hafter, hspells⟩ := hbody hend
    have hlater := Store.get?_of_le (t.grows_body true _ _ _ hend) hget
    have hstored := hafter level hlevel name stored (hrefId.symm.trans hname) hlater
    refine Store.spells_referenceWith hlater hstored fun later hle key hkey => ?_
    -- All that a delta declares is declared by the whole object that it is taken from.
    refine (hspells later hle key).mp (hkey.of_entries fun e he hkey _ => ?_)
    rcases Entries.mem_extend (List.mem_filter.mp he).1 with he | he
    · exact absurd (List.mem_map_of_mem (List.mem_filter.mp he).1) (hdeclaring e.1 hkey)
    · exact (List.mem_filter.mp he).1
  | unnamed _ hend => exact (hbody hend).2.overlay hdeclaring
  | taken _ _ hend _ => exact (hbody hend).2.overlay hdeclaring
  | @stored name body mid _ _ hend hfree =>
    have hle := Store.le_define mid name (Fragment.overlay body t.keys)
    have hspells := ((hbody hend).2.overlay hdeclaring).of_le hle
    split
    · refine Store.spells_toSchema ?_ hspells
      rw [Store.get?_define, hfree, if_pos rfl, Option.none_or]
    · exact hspells

end Schema.Chain

/-! ## Schemas that leave the identifiers of a chain alone -/

namespace Schema

/-- The document keys that are given with a schema do not say what it is made of. -/
def Unformed (s : Schema) : Prop :=
  ∀ own, s.ownMetadata? = some own → ∀ key ∈ Fragment.formingKeys, key ∉ Entries.keys own.fields

/-- A node of a schema tree that carries the identifier of a level is that level. -/
def Respects (levels : List Schema) (s : Schema) : Prop :=
  ∀ t, s.Contains t → ∀ level ∈ levels, ∀ name, level.refId? = some name →
    t.ownRefId? = some name → t = level

/-- Wherever the identifier of a level is visible in a schema tree, the level is what is compiled
there, under document keys that do not say what it is made of. -/
def Shows (levels : List Schema) (s : Schema) : Prop :=
  ∀ t, s.Contains t → ∀ level ∈ levels, ∀ name, level.refId? = some name → t.refId? = some name →
    t.shape false = level.shape false ∧ t.Unformed

variable {levels : List Schema} {s t : Schema}

theorem Respects.of_children
    (here : ∀ level ∈ levels, ∀ name, level.refId? = some name → s.ownRefId? = some name → s = level)
    (below : ∀ c ∈ s.children, c.Respects levels) : s.Respects levels := by
  intro t ht
  rcases contains_iff.mp ht with rfl | ⟨c, hc, hct⟩
  · exact here
  · exact below c hc t hct

theorem respects_ofKind {kind : Kind Schema} (h : kind.schemas = []) :
    (ofKind kind).Respects levels := by
  refine .of_children (fun _ _ _ _ hown => ?_) fun c hc => ?_
  · cases hown
  · rw [children, ofKind, Schema.kind, h] at hc
    cases hc

theorem respects_self (h : ∀ c ∈ s.children, c.Respects [s]) : s.Respects [s] :=
  .of_children (fun _ hlevel _ _ _ => (List.mem_singleton.mp hlevel).symm) h

/-- An extension respects identifiers if the extended object and the new fields do: it has no
identifier of its own. -/
theorem Respects.extend (h : s.Respects levels) {fields : List (String × Schema)}
    (hfields : ∀ e ∈ fields, e.2.Respects levels) : (s.extend fields).Respects levels := by
  have hchild {c : Schema} (hc : c ∈ s.children) : c.Respects levels := fun t ht =>
    h t (.step hc ht)
  cases hobject : s.isObject with
  | false =>
    obtain ⟨kind, description, label⟩ := s
    cases kind <;> first | exact h | cases hobject
  | true =>
    have hlink := link?_extend hobject fields
    refine .of_children (fun level _ name _ hown => ?_) fun c hc => ?_
    · obtain ⟨kind, description, label⟩ := s
      cases kind <;> first | cases hown | cases hobject
    · rcases List.mem_append.mp hc with hc | hc
      · obtain ⟨kind, description, label⟩ := s
        cases kind with
        | object own treatment catchall =>
          rcases List.mem_append.mp hc with hc | hc
          · obtain ⟨e, he, rfl⟩ := List.mem_map.mp hc
            rcases Entries.mem_extend he with he | he
            · exact hfields e he
            · exact hchild (List.mem_append_left _ (List.mem_append_left _ (List.mem_map_of_mem he)))
          · exact hchild (List.mem_append_left _ (List.mem_append_right _ hc))
        | _ => cases hobject
      · rw [hlink] at hc
        cases hname : s.refId? with
        | some name =>
          rw [hname] at hc
          rw [List.mem_singleton.mp hc]
          exact h
        | none =>
          rw [hname, Option.map_none, Option.none_or] at hc
          exact hchild (List.mem_append_right _ hc)

theorem Unformed.not_mem_documentKeys (h : s.Unformed) :
    ∀ key ∈ Fragment.formingKeys, key ∉ Entries.keys s.documentKeys := by
  rintro key hkey hmem
  obtain ⟨e, he, rfl⟩ := List.mem_map.mp hmem
  rcases mem_documentKeys_own he with ⟨text, rfl⟩ | ⟨own, hown, he⟩
  · exact absurd hkey (by decide : "description" ∉ Fragment.formingKeys)
  · exact h own hown e.1 hkey (List.mem_map_of_mem he)

theorem Shows.standsIn (h : s.Shows levels) {u : Site} (hu : s.site.Reaches u) :
    u.StandsIn levels := by
  obtain ⟨t, ht, rfl⟩ := settled_of_reaches hu
  intro level hlevel name hname hrefId
  obtain ⟨hshape, hunformed⟩ := h t ht level hlevel name hname hrefId
  exact ⟨hshape, hunformed.not_mem_documentKeys⟩

theorem Unformed.parameter (h : s.Unformed) (info : ParameterInfo) : (s.parameter info).Unformed := by
  intro own hown
  rw [Schema.parameter, Parameter.ownMetadata?_annotate, Option.some.injEq] at hown
  subst hown
  cases hexisting : s.ownMetadata? with
  | none => exact fun key _ => List.not_mem_nil
  | some existing => exact h existing hexisting

/-- What holds of every node of a schema tree, and is kept when a node is made a parameter, passes
to parts and to parameters. -/
theorem hereditary_of_contains {Q : Schema → Prop}
    (parameter : ∀ s info, Q s → Q (s.parameter info)) :
    Hereditary fun s => ∀ t, s.Contains t → Q t where
  part h ht u hu := h u (.trans (.of_kind ht) hu)
  parameter {s} info h u hu := by
    rcases Law.contains_annotate hu with rfl | hu
    · exact parameter s info (h s (.refl s))
    · exact h u hu

theorem hereditary_shows : Hereditary (Shows levels) := by
  refine hereditary_of_contains fun s info h level hlevel name hname hrefId => ?_
  rw [Schema.parameter, refId?_annotate] at hrefId
  obtain ⟨hshape, hunformed⟩ := h level hlevel name hname hrefId
  exact ⟨(shape_annotate s _).trans hshape, hunformed.parameter info⟩

/-- Where the identifier of an object is visible that no other node carries, the object is the
innermost node, and nothing else is said by the wrappers around it. -/
theorem core_of_respects {level : Schema} (hobject : level.isObject = true)
    (h : s.Respects levels) (hlevel : level ∈ levels) {name : String}
    (hname : level.refId? = some name) (ht : s.Contains t) (hrefId : t.refId? = some name) :
    t.core = level ∧ t.visibleLabel = level.visibleLabel := by
  rw [visibleLabel_of_isObject hobject]
  cases hlabel : t.label with
  | some label =>
    have hown : t.ownRefId? = some name := by
      rw [← hrefId, ownRefId?, refId?, identity?, visibleLabel, hlabel]
      rfl
    have hsame := h t ht level hlevel name hname hown
    rw [hsame, core_of_isObject hobject, visibleLabel_of_isObject hobject]
    exact ⟨rfl, rfl⟩
  | none =>
    have hvisible : t.visibleLabel = t.core.label := by
      rw [visibleLabel, hlabel]
      rfl
    have hown : t.core.ownRefId? = some name := by
      rw [← hrefId, ownRefId?, refId?, identity?, hvisible]
    have hsame := h t.core (ht.trans (contains_core t)) level hlevel name hname hown
    exact ⟨hsame, hvisible.trans (congrArg label hsame)⟩

/-- Where the identifier of a level is visible, the wrappers around the level change neither the
shape nor what is given. -/
theorem shows_of_respects (chain : Chain levels) (unformed : ∀ level ∈ levels, level.Unformed)
    (h : s.Respects levels) : s.Shows levels := by
  intro t ht level hlevel name hname hrefId
  obtain ⟨hcore, hlabel⟩ :=
    core_of_respects (chain.isObject hlevel) h hlevel hname ht hrefId
  refine ⟨?_, fun own hown => ?_⟩
  · rw [← hcore, shape_core]
  · rw [ownMetadata?, hlabel] at hown
    exact unformed level hlevel own hown

end Schema

/-! ## Chains at every point of a generation -/

namespace Generation

variable {dialect : Dialect} {admitted : Definition → Prop} {levels : List Schema}
  (chain : Schema.Chain levels)
  (shows : ∀ d, admitted d → ∀ s ∈ d.schemas, s.Shows levels)

include chain shows

theorem Leads.sound {generation after : Generation} (h : Leads dialect admitted generation after)
    (sound : generation.schemas.Sound levels) : after.schemas.Sound levels :=
  h.moves_of_schemas (Store.Preserves.refl _) (Store.Preserves.trans _) Schema.hereditary_shows
    (fun _ hs _ hreaches reply =>
      chain.moves_compile (fun _ hu => hs.standsIn (hreaches.trans hu)) reply) shows sound

end Generation

/-- A chain of extensions loses no property and invents none, whichever of its levels have been
compiled before, and in what order. At every point of a generation, compiling the last level ends,
if it does not fail, with a fragment that declares the fields of that level and no others, followed
through its parts and its references; and so does the fragment that is stored for the level. Nothing
but a level is to carry an identifier of the chain, and no level is given document keys that say
what it is made of. -/
theorem chain_properties {dialect : Dialect} {admitted : Definition → Prop} {leaf : Schema}
    {above : List Schema} (chain : Schema.Chain (leaf :: above))
    (unformed : ∀ level ∈ leaf :: above, level.Unformed)
    (own : leaf.Respects (leaf :: above))
    (respects : ∀ d, admitted d → ∀ s ∈ d.schemas, s.Respects (leaf :: above))
    {generation : Generation} (h : Generation.Leads dialect admitted {} generation) :
    (∀ reply answer schemas,
        leaf.site.compile dialect reply generation.schemas = .ok (answer, schemas) →
          schemas.Spells answer (Entries.keys leaf.fields))
      ∧ ∀ name stored, leaf.refId? = some name → generation.schemas.get? name = some stored →
          generation.schemas.Spells stored (Entries.keys leaf.fields) := by
  have hempty : Store.Sound (leaf :: above) {} := by
    intro level _ name stored _ hget
    cases hget
  have hshows (s : Schema) (hs : s.Respects (leaf :: above)) : s.Shows (leaf :: above) :=
    Schema.shows_of_respects chain unformed hs
  have hsound : generation.schemas.Sound (leaf :: above) :=
    h.sound chain (fun d hd s hs => hshows s (respects d hd s hs)) hempty
  refine ⟨fun reply answer schemas hcompile => ?_, hsound leaf List.mem_cons_self⟩
  have hkeys : ∀ key ∈ Fragment.formingKeys, key ∉ Entries.keys leaf.site.keys :=
    (unformed leaf List.mem_cons_self).not_mem_documentKeys
  exact chain.spells_answer List.mem_cons_self rfl hkeys (Schema.refId_site leaf)
    (fun _ hu => (hshows leaf own).standsIn hu) hcompile hsound

/-- An object, an extension of it that has no identifier and gives one property another schema, and
a named extension of that: the last one is stored as what is new in it, and declares all. -/
theorem extension_over_unnamed_level :
    let text := Schema.ofKind (.string [])
    let flag := Schema.ofKind .boolean
    let base := (Schema.object [("x", text), ("y", flag)]).named "Base"
    let middle := (base.extend [("y", text)]).annotate { fields := [("title", .string "t")] }
    let leaf := (middle.extend [("z", flag)]).named "Leaf"
    let written (type : String) : Json := .object [("type", .string type)]
    let whole : Fragment := [("type", .string "object"),
      ("properties", .object [("x", written "string"), ("y", written "boolean")]),
      ("required", .strings ["x", "y"])]
    let own : Fragment := [("type", .string "object"),
      ("properties", .object [("y", written "string"), ("z", written "boolean")]),
      ("required", .strings ["z"])]
    let schemas : Store Fragment := ⟨[("Base", whole),
      ("Leaf", [("allOf", .array [.object (Reference.toSchema "Base"), .object own]),
        ("title", .string "t")])]⟩
    Generation.Leads .types (· = .schema leaf) {} { schemas := schemas }
      ∧ leaf.site.compile .types .reference schemas = .ok (Reference.toSchema "Leaf", schemas)
      ∧ schemas.Spells (Reference.toSchema "Leaf") ["x", "y", "z"] := by
  intro text flag base middle leaf written whole own schemas
  have chain : Schema.Chain [leaf, middle, base] := by
    refine .extend [("z", flag)] (.extend [("y", text)] (.base rfl rfl rfl) ?_) ?_
    · exact (Schema.relabels_labelled rfl).2.1 _
    · exact (Schema.relabels_labelled rfl).1 _
  have hunformed : ∀ level ∈ [leaf, middle, base], level.Unformed := by
    have htitle : ∀ key ∈ Fragment.formingKeys, key ∉ ["title"] := by decide
    intro level hlevel own hown
    simp only [List.mem_cons, List.not_mem_nil, or_false] at hlevel
    rcases hlevel with rfl | rfl | rfl
    · cases hown
      exact htitle
    · cases hown
      exact htitle
    · cases hown
  have hhere : ∀ s ∈ [leaf, base], ∀ level ∈ [leaf, middle, base], ∀ name,
      level.refId? = some name → s.ownRefId? = some name → s = level := by
    have hdistinct : ¬ some "Base" = some "Leaf" := by decide
    intro s hs level hlevel name hname hown
    simp only [List.mem_cons, List.not_mem_nil, or_false] at hs hlevel
    rcases hs with rfl | rfl
    · rcases hlevel with rfl | rfl | rfl
      · rfl
      · cases hname
      · exact absurd (hname.trans hown.symm) hdistinct
    · rcases hlevel with rfl | rfl | rfl
      · exact absurd (hown.trans hname.symm) hdistinct
      · cases hname
      · rfl
  have htext : text.Respects [leaf, middle, base] := Schema.respects_ofKind rfl
  have hflag : flag.Respects [leaf, middle, base] := Schema.respects_ofKind rfl
  have hbase : base.Respects [leaf, middle, base] := by
    refine .of_children (hhere base (by simp)) fun c hc => ?_
    have hc : c = text ∨ c = flag := by simpa using (show c ∈ [text, flag] from hc)
    rcases hc with rfl | rfl
    · exact htext
    · exact hflag
  have hrespects : leaf.Respects [leaf, middle, base] := by
    refine .of_children (hhere leaf (by simp)) fun c hc => ?_
    have hc : c = text ∨ c = text ∨ c = flag ∨ c = base := by
      simpa using (show c ∈ [text, text, flag, base] from hc)
    rcases hc with rfl | rfl | rfl | rfl
    · exact htext
    · exact htext
    · exact hflag
    · exact hbase
  have hadmitted : ∀ d, d = Definition.schema leaf →
      ∀ s ∈ d.schemas, Schema.Respects [leaf, middle, base] s := by
    rintro d rfl s hs
    rw [List.mem_singleton.mp hs]
    exact hrespects
  have hleads : Generation.Leads .types (· = .schema leaf) {} { schemas := schemas } :=
    .single (.definition rfl rfl)
  have hcompile : leaf.site.compile .types .reference schemas
      = .ok (Reference.toSchema "Leaf", schemas) := by rfl
  exact ⟨hleads, hcompile,
    (chain_properties chain hunformed hrespects hadmitted hleads).1 _ _ _ hcompile⟩

end OpenApi
