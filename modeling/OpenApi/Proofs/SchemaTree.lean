/-
# OpenApi.Proofs.SchemaTree -- schemas as trees, and the sites that they settle to

A schema is a finite tree: under a node are the schemas of its kind and the object that its
label says it extends. `Schema.Contains` closes this under itself.

Every site that compiling a schema visits is the site of a schema of the tree
(`Schema.settled_of_reaches`). What holds of the nodes of a schema tree can be carried over to
all sites in this way.
-/
import OpenApi.Proofs.SiteTree
import OpenApi.Schema.Builder
import OpenApi.Site.OfSchema

namespace OpenApi.Schema

/-! ## Nodes of a tree -/

/-- The schemas that a kind holds. -/
def Kind.schemas : Kind Schema → List Schema
  | .object shape _ catchall => shape.map (·.2) ++ catchall.toList
  | .array element _ _ _ => [element]
  | .tuple items => items
  | .union options => options
  | .discriminatedUnion _ options => options
  | .intersection left right => [left, right]
  | .record key value => key.toList ++ [value]
  | .effects inner => [inner]
  | .optional inner => [inner]
  | .nullable inner => [inner]
  | .default inner _ => [inner]
  | .branded inner _ => [inner]
  | .readonly inner => [inner]
  | .pipeline input output => [input, output]
  | .map key value => [key, value]
  | .set item => [item]
  | .promise inner => [inner]
  | _ => []

/-- The link to an extended object that a node itself carries. -/
def link? (s : Schema) : Option (Parent Schema) := (s.label.bind (·.identity)).bind (·.parent)

/-- The schemas directly under a node: those of its kind, and the object that it extends. -/
def children (s : Schema) : List Schema := s.kind.schemas ++ (s.link?.map (·.schema)).toList

/-- A node of a schema tree. -/
inductive Contains : Schema → Schema → Prop
  | refl (s : Schema) : Contains s s
  | step {s c u : Schema} : c ∈ s.children → Contains c u → Contains s u

theorem Contains.trans {s t u : Schema} (h : s.Contains t) (h' : t.Contains u) : s.Contains u := by
  induction h with
  | refl _ => exact h'
  | step hc _ ih => exact .step hc (ih h')

theorem Contains.child {s c : Schema} (h : c ∈ s.children) : s.Contains c := .step h (.refl c)

theorem Contains.of_kind {s c : Schema} (h : c ∈ s.kind.schemas) : s.Contains c :=
  .child (List.mem_append_left _ h)

theorem contains_iff {s u : Schema} :
    s.Contains u ↔ u = s ∨ ∃ c ∈ s.children, c.Contains u := by
  constructor
  · intro h
    cases h with
    | refl _ => exact Or.inl rfl
    | step hc hu => exact Or.inr ⟨_, hc, hu⟩
  · rintro (rfl | ⟨c, hc, hu⟩)
    · exact .refl _
    · exact .step hc hu

/-! ## Induction -/

theorem sizeOf_snd_lt {entries : List (String × Schema)} {c : Schema}
    (h : c ∈ entries.map (·.2)) : sizeOf c < sizeOf entries := by
  obtain ⟨⟨key, s⟩, hmem, rfl⟩ := List.mem_map.mp h
  have hlt := List.sizeOf_lt_of_mem hmem
  rw [Prod.mk.sizeOf_spec] at hlt
  show sizeOf s < _
  omega

theorem sizeOf_toList_lt {o : Option Schema} {c : Schema} (h : c ∈ o.toList) :
    sizeOf c < sizeOf o := by
  cases o with
  | none => cases h
  | some s =>
    rw [List.mem_singleton.mp h, Option.some.sizeOf_spec]
    omega

theorem sizeOf_pair_lt {a b c : Schema} (h : c ∈ [a, b]) : sizeOf c < 1 + sizeOf a + sizeOf b := by
  rcases List.mem_cons.mp h with rfl | h
  · omega
  · rw [List.mem_singleton.mp h]
    omega

theorem Kind.sizeOf_lt {kind : Kind Schema} {c : Schema} (h : c ∈ kind.schemas) :
    sizeOf c < sizeOf kind := by
  cases kind with
  | object shape unknownKeys catchall =>
    rw [object.sizeOf_spec]
    rcases List.mem_append.mp h with h | h
    · have hlt := sizeOf_snd_lt h
      omega
    · have hlt := sizeOf_toList_lt h
      omega
  | tuple items =>
    have hlt : sizeOf c < sizeOf items := List.sizeOf_lt_of_mem h
    rw [tuple.sizeOf_spec]
    omega
  | union options =>
    have hlt : sizeOf c < sizeOf options := List.sizeOf_lt_of_mem h
    rw [union.sizeOf_spec]
    omega
  | discriminatedUnion name options =>
    have hlt : sizeOf c < sizeOf options := List.sizeOf_lt_of_mem h
    rw [discriminatedUnion.sizeOf_spec]
    omega
  | record key value =>
    rw [record.sizeOf_spec]
    rcases List.mem_append.mp h with h | h
    · have hlt := sizeOf_toList_lt h
      omega
    · rw [List.mem_singleton.mp h]
      omega
  | intersection left right => exact sizeOf_pair_lt h
  | pipeline input output => exact sizeOf_pair_lt h
  | map key value => exact sizeOf_pair_lt h
  | array element least most exact =>
    rw [List.mem_singleton.mp h, array.sizeOf_spec]
    omega
  | default inner value =>
    rw [List.mem_singleton.mp h, default.sizeOf_spec]
    omega
  | branded inner brand =>
    rw [List.mem_singleton.mp h, branded.sizeOf_spec]
    omega
  | effects inner | optional inner | nullable inner | readonly inner | set inner | promise inner =>
    rw [List.mem_singleton.mp h]
    exact Nat.lt_add_of_pos_left Nat.one_pos
  | null | string _ | number _ | bigint _ | boolean | literal _ | enumeration _ | nativeEnum _
  | unknown | any | date | never | void | undefined => cases h

theorem sizeOf_lt {s c : Schema} (h : c ∈ s.children) : sizeOf c < sizeOf s := by
  obtain ⟨kind, description, label⟩ := s
  rw [node.sizeOf_spec]
  rcases List.mem_append.mp h with h | h
  · have hlt : sizeOf c < sizeOf kind := Kind.sizeOf_lt h
    omega
  · match label, h with
    | some ⟨some ⟨own, some ⟨refId, parent⟩⟩, metadata⟩, h =>
      have hc : c = parent := List.mem_singleton.mp h
      subst hc
      simp only [Option.some.sizeOf_spec, Label.mk.sizeOf_spec, Identity.mk.sizeOf_spec,
        Parent.mk.sizeOf_spec]
      omega

/-- What passes from the schemas under a node to the node holds of every schema. -/
theorem induction {P : Schema → Prop} (step : ∀ s, (∀ c ∈ s.children, P c) → P s) (s : Schema) :
    P s :=
  step s fun c hc =>
    have := sizeOf_lt hc
    induction step c
termination_by sizeOf s

/-! ## Nodes under wrappers -/

/-- The schema that a wrapper kind is put around. -/
def Kind.wrapped? : Kind Schema → Option Schema
  | .effects inner => some inner
  | .optional inner => some inner
  | .nullable inner => some inner
  | .default inner _ => some inner
  | .branded inner _ => some inner
  | .readonly inner => some inner
  | _ => none

theorem Kind.mem_schemas_of_wrapped? {kind : Kind Schema} {inner : Schema}
    (h : kind.wrapped? = some inner) : inner ∈ kind.schemas := by
  cases kind <;> cases h <;> exact List.mem_singleton_self _

theorem core_of_wrapped? {s inner : Schema} (h : s.kind.wrapped? = some inner) :
    s.core = inner.core := by
  obtain ⟨kind, description, label⟩ := s
  cases kind <;> cases h <;> rw [core]

theorem core_of_not_wrapped {s : Schema} (h : s.kind.wrapped? = none) : s.core = s := by
  obtain ⟨kind, description, label⟩ := s
  cases kind <;> first | rfl | cases h

theorem contains_core (s : Schema) : s.Contains s.core := by
  induction s using induction with
  | step s ih =>
    cases h : s.kind.wrapped? with
    | none =>
      rw [core_of_not_wrapped h]
      exact .refl s
    | some inner =>
      have hchild : inner ∈ s.children := List.mem_append_left _ (Kind.mem_schemas_of_wrapped? h)
      rw [core_of_wrapped? h]
      exact .step hchild (ih inner hchild)

/-- The innermost node is not a wrapper. -/
theorem wrapped?_core (s : Schema) : s.core.kind.wrapped? = none := by
  induction s using induction with
  | step s ih =>
    cases h : s.kind.wrapped? with
    | none =>
      rw [core_of_not_wrapped h]
      exact h
    | some inner =>
      rw [core_of_wrapped? h]
      exact ih inner (List.mem_append_left _ (Kind.mem_schemas_of_wrapped? h))

theorem core_core (s : Schema) : s.core.core = s.core := core_of_not_wrapped (wrapped?_core s)

theorem contains_nonNullable (s : Schema) : s.Contains s.nonNullable := by
  induction s using induction with
  | step s ih =>
    obtain ⟨kind, description, label⟩ := s
    cases kind with
    | nullable inner =>
      have hchild : inner ∈ (node (.nullable inner) description label).children :=
        List.mem_append_left _ (List.mem_singleton_self inner)
      rw [nonNullable]
      exact .step hchild (ih inner hchild)
    | _ => exact .refl _

/-- A nullable wrapper has the shape of what it is put around. -/
theorem shape_nonNullable (s : Schema) : s.nonNullable.shape false = s.shape false := by
  induction s using induction with
  | step s ih =>
    obtain ⟨kind, description, label⟩ := s
    cases kind with
    | nullable inner =>
      rw [nonNullable, shape]
      exact ih inner (List.mem_append_left _ (List.mem_singleton_self inner))
    | _ => rfl

/-! ## Lists of schemas -/

theorem anyOptional_eq (options : List Schema) : anyOptional options = options.any isOptional := by
  induction options with
  | nil => rfl
  | cons first rest ih => rw [anyOptional, ih, List.any_cons]

theorem anyNullable_eq (options : List Schema) : anyNullable options = options.any isNullable := by
  induction options with
  | nil => rfl
  | cons first rest ih => rw [anyNullable, ih, List.any_cons]

/-! ## Lists of sites -/

theorem sites_eq (schemas : List Schema) :
    sites schemas = schemas.map fun s => s.siteOf (shape false s) := by
  induction schemas with
  | nil => rfl
  | cons s rest ih => rw [sites, ih, List.map_cons]

theorem optionSites_eq (options : List Schema) :
    optionSites options = options.flatMap fun s => s.alternatives (shape false s) := by
  induction options with
  | nil => rfl
  | cons s rest ih => rw [optionSites, ih, List.flatMap_cons]

theorem fieldSites_eq (fields : List (String × Schema)) :
    fieldSites fields = fields.map fun f => (f.1, f.2.siteOf (shape false f.2)) := by
  induction fields with
  | nil => rfl
  | cons f rest ih =>
    obtain ⟨key, s⟩ := f
    rw [fieldSites, ih, List.map_cons]

theorem optionSite_eq (o : Option Schema) :
    optionSite o = o.map fun s => s.siteOf (shape false s) := by
  cases o with
  | none => rfl
  | some s => rw [optionSite, Option.map_some]

theorem mem_additional_sites {treatment : UnknownKeys} {catchall : Option Schema} {c : Site}
    (h : c ∈ (additional treatment catchall (optionSite catchall)).sites) :
    ∃ s, catchall = some s ∧ c = s.siteOf (shape false s) := by
  cases catchall with
  | none =>
    simp only [optionSite_eq, Option.map_none, additional] at h
    split at h <;> cases h
  | some s =>
    refine ⟨s, rfl, ?_⟩
    simp only [optionSite_eq, Option.map_some, additional] at h
    split at h
    · split at h <;> cases h
    · rename_i hsome _
      cases hsome
      exact List.mem_singleton.mp h
    · rename_i hnone _
      cases hnone

theorem mem_fieldSites {fields : List (String × Schema)} {c : Site}
    (h : c ∈ (fieldSites fields).map (·.2)) :
    ∃ s ∈ fields.map (·.2), c = s.siteOf (shape false s) := by
  rw [fieldSites_eq, List.map_map] at h
  obtain ⟨f, hf, rfl⟩ := List.mem_map.mp h
  exact ⟨f.2, List.mem_map_of_mem hf, rfl⟩

/-! ## Where sites come from -/

/-- The site of a schema of a tree. -/
def Settles (s : Schema) (c : Site) : Prop := ∃ t, s.Contains t ∧ c = t.site

theorem Settles.of_child {s t : Schema} {c : Site} (h : s.Contains t) (hc : t.Settles c) :
    s.Settles c := by
  obtain ⟨u, hu, rfl⟩ := hc
  exact ⟨u, h.trans hu, rfl⟩

theorem settles_site {s t : Schema} (h : s.Contains t) : s.Settles (t.siteOf (t.shape false)) :=
  ⟨t, h, rfl⟩

theorem settles_alternatives {s : Schema} (below : ∀ c ∈ (s.shape false).children, s.Settles c)
    {c : Site} (h : c ∈ s.alternatives (s.shape false)) : s.Settles c := by
  unfold alternatives at h
  split at h
  · rename_i hshape
    rw [hshape] at below
    exact below c h
  · rw [List.mem_singleton.mp h, ← shape_nonNullable]
    exact settles_site (contains_nonNullable s)

theorem settles_conjuncts {s : Schema} (below : ∀ c ∈ (s.shape false).children, s.Settles c)
    {c : Site} (h : c ∈ s.conjuncts (s.shape false)) : s.Settles c := by
  unfold conjuncts at h
  split at h
  · rename_i hshape
    rw [hshape] at below
    exact below c h
  · rw [List.mem_singleton.mp h]
    exact settles_site (.refl s)

theorem mem_children_of_mem_properties {shape : Shape} {c : Site}
    (h : c ∈ shape.properties.map (·.2)) : c ∈ shape.children := by
  cases shape with
  | object members => exact List.mem_append_left _ h
  | extension members refId parent base baseRequired =>
    exact List.mem_append_left _ (List.mem_append_left _ h)
  | _ => cases h

theorem settles_members {s : Schema} {fields : List (String × Schema)} {treatment : UnknownKeys}
    {catchall : Option Schema} (hkind : s.kind = .object fields treatment catchall) {c : Site}
    (h : c ∈ Members.sites ⟨fieldSites fields, requiredKeys fields,
      additional treatment catchall (optionSite catchall)⟩) : s.Settles c := by
  have hschemas : s.kind.schemas = fields.map (·.2) ++ catchall.toList := by
    rw [hkind]
    rfl
  rcases List.mem_append.mp h with h | h
  · obtain ⟨t, ht, rfl⟩ := mem_fieldSites h
    refine settles_site (.of_kind ?_)
    rw [hschemas]
    exact List.mem_append_left _ ht
  · obtain ⟨t, ht, rfl⟩ := mem_additional_sites h
    refine settles_site (.of_kind ?_)
    rw [hschemas, ht]
    exact List.mem_append_right _ (List.mem_singleton_self t)

/-- The children of a shape are sites of schemas of the tree that gives the shape. -/
theorem settles_shape (s : Schema) : ∀ piped, ∀ c ∈ (s.shape piped).children, s.Settles c := by
  induction s using induction with
  | step s ih =>
    -- Where the shape is that of a schema below, its children are settled there.
    have under {t : Schema} (ht : t ∈ s.kind.schemas) (piped : Bool) :
        ∀ c ∈ (t.shape piped).children, s.Settles c := fun c hc =>
      .of_child (.of_kind ht) (ih t (List.mem_append_left _ ht) piped c hc)
    intro piped c hc
    obtain ⟨kind, description, label⟩ := s
    cases kind with
    | object fields treatment catchall =>
      unfold shape at hc
      dsimp only at hc
      split at hc
      · rename_i own refId parent metadata
        rcases List.mem_append.mp hc with hc | hc
        · exact settles_members rfl hc
        · have hparent : parent ∈ (node (.object fields treatment catchall) description
              (some ⟨some ⟨own, some ⟨refId, parent⟩⟩, metadata⟩)).children :=
            List.mem_append_right _ (List.mem_singleton_self _)
          rcases List.mem_cons.mp hc with rfl | hc
          · exact settles_site (.child hparent)
          · -- The properties of the parent are compiled once more, to be compared.
            split at hc
            · exact .of_child (.child hparent)
                (ih parent hparent false c (mem_children_of_mem_properties hc))
            · cases hc
      · exact settles_members rfl hc
    | array element least most exact =>
      rw [shape] at hc
      rw [List.mem_singleton.mp hc]
      exact settles_site (.of_kind List.mem_cons_self)
    | tuple items =>
      rw [shape, Shape.children, sites_eq] at hc
      obtain ⟨t, ht, rfl⟩ := List.mem_map.mp hc
      exact settles_site (.of_kind ht)
    | union options =>
      rw [shape, Shape.children, optionSites_eq] at hc
      obtain ⟨t, ht, hc⟩ := List.mem_flatMap.mp hc
      exact .of_child (.of_kind ht)
        (settles_alternatives (ih t (List.mem_append_left _ ht) false) hc)
    | discriminatedUnion name options =>
      rw [shape, Shape.children, sites_eq] at hc
      obtain ⟨t, ht, rfl⟩ := List.mem_map.mp hc
      exact settles_site (.of_kind ht)
    | intersection left right =>
      rw [shape, Shape.children] at hc
      have hleft : left ∈ (Kind.intersection left right).schemas := List.mem_cons_self
      have hright : right ∈ (Kind.intersection left right).schemas :=
        List.mem_cons_of_mem _ List.mem_cons_self
      rcases List.mem_append.mp hc with hc | hc
      · exact .of_child (.of_kind hleft)
          (settles_conjuncts (ih left (List.mem_append_left _ hleft) false) hc)
      · exact .of_child (.of_kind hright)
          (settles_conjuncts (ih right (List.mem_append_left _ hright) false) hc)
    | record key value =>
      rw [shape] at hc
      rw [List.mem_singleton.mp hc]
      exact settles_site (.of_kind (List.mem_append_right _ List.mem_cons_self))
    | effects inner =>
      rw [shape] at hc
      split at hc
      · rw [List.mem_singleton.mp hc]
        exact settles_site (.of_kind List.mem_cons_self)
      · exact under List.mem_cons_self false c hc
    | optional inner | nullable inner | default inner _ | branded inner _ | readonly inner =>
      rw [shape] at hc
      exact under List.mem_cons_self false c hc
    | pipeline input output =>
      rw [shape] at hc
      exact under List.mem_cons_self true c hc
    | literal value =>
      rw [shape] at hc
      unfold literalShape at hc
      split at hc <;> cases hc
    | nativeEnum members =>
      rw [shape] at hc
      unfold nativeEnumShape at hc
      dsimp only at hc
      split at hc
      · cases hc
      · split at hc <;> cases hc
    | null | string _ | number _ | bigint _ | boolean | enumeration _ | unknown | any | date
    | never | void | undefined | map _ _ | set _ | promise _ =>
      unfold shape at hc
      cases hc

/-- Every site that compiling a schema visits is the site of a schema of its tree. -/
theorem settled_of_reaches {s : Schema} {u : Site} (h : s.site.Reaches u) : s.Settles u := by
  -- Stated of any settled site, so that the induction goes down from the one that is visited first.
  have closed : ∀ t u : Site, t.Reaches u → s.Settles t → s.Settles u := by
    intro t u h
    induction h with
    | refl _ => exact id
    | step hc _ ih =>
      rintro ⟨t, ht, rfl⟩
      exact ih (.of_child ht (settles_shape t false _ (Site.mem_children hc).2))
  exact closed s.site u h (settles_site (.refl s))

end OpenApi.Schema
