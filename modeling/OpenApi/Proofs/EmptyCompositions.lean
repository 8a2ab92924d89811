/-
# OpenApi.Proofs.EmptyCompositions -- where compositions without members come from

A union, a tuple, a discriminated union, an intersection and a reference with a delta are written as
compositions. That none of these is without members is a law, and it is lawful for everything that a
compilation writes, but for the shapes that are `Shape.Hollow`: a tuple without items, and alternatives
of which there are none where null is none either. So whatever composition without members stands in
an output was given, or a hollow schema was compiled (`Generates.holds_empty`).

The parts of an intersection cannot run out: its sides are flattened down to schemas that are no
intersections. Unions can, since a union without options leaves none.
-/
import OpenApi.Proofs.ComponentGroups
import OpenApi.Proofs.Composition
import OpenApi.Proofs.Ownership

namespace OpenApi

/-! ## The law of compositions -/

/-- A member is no composition without members, except under keys where this is allowed. -/
def Permits (allowed : String → Prop) (e : String × Json) : Prop :=
  ∀ key ∈ compositionKeys, e = (key, .array []) → allowed key

/-- A composition has members, except under keys where this is not asked for. -/
def compositionLaw (allowed : String → Prop) : Law where
  Binds := False
  Keys _ := True
  Allows _ := Permits allowed
  Seals _ := Permits allowed
  Grants := Permits allowed

section Permits

variable {allowed : String → Prop} {e : String × Json}

theorem permits_of_ne (h : e.2 ≠ .array []) : Permits allowed e := by
  rintro key _ rfl
  exact absurd rfl h

theorem permits_of_key (h : e.1 ∉ compositionKeys) : Permits allowed e := by
  rintro key hkey rfl
  exact absurd hkey h

theorem Written.permits {dialect : Dialect} (h : Written dialect e) : Permits allowed e := by
  have hplain : ∀ key ∈ plainKeys, key ∉ compositionKeys := by decide
  rcases h.key_mem with hkey | ⟨_, items, hitems, hvalue⟩
  · exact permits_of_key (hplain _ hkey)
  · refine permits_of_ne fun hnil => hitems ?_
    rw [hvalue] at hnil
    exact Json.array.inj hnil

end Permits

/-- Compilations keep the law of compositions. -/
theorem compositionLaw_lawful (allowed : String → Prop) (dialect : Dialect) :
    (compositionLaw allowed).Lawful dialect where
  keys_nil := trivial
  keys_snoc _ _ := trivial
  keys_sublist _ _ := trivial
  allows_mono _ h := h
  seals_mono _ h := h
  allows h := h
  placed _ _ := permits_of_ne (by simp)
  granted _ h := h
  written _ h := h.permits
  reference _ := permits_of_ne (by simp)
  mapping h := by
    refine ⟨permits_of_ne (by simp), fun e he => permits_of_ne ?_⟩
    obtain ⟨refId, _, htarget⟩ := h e he
    simp [htarget]
  discriminator _ := permits_of_ne (by simp)

/-- Definitions satisfy the law if it allows what is given with them and what is hollow in them. -/
theorem Definition.admits_compositionLaw {allowed : String → Prop} {d : Definition}
    (given : ∀ value, d.Gives value → ∀ key ∈ compositionKeys, value.Holds key (.array []) → allowed key)
    (hollow : ∀ s ∈ d.schemas, ∀ t, s.Contains t → ∀ key, t.site.Hollow key → allowed key) :
    (compositionLaw allowed).Admits d := by
  have hclean (value : Json) (hvalue : d.Gives value) : (compositionLaw allowed).Clean value := by
    refine fun members hin => ⟨trivial, fun e he key hkey hempty => ?_⟩
    exact given value hvalue key hkey ⟨members, hin, hempty ▸ he⟩
  constructor
  · intro s hs
    refine ⟨fun hbinds => hbinds.elim, fun _ _ _ _ _ _ => trivial, fun value hvalue => ?_,
      fun t ht key hhollow other _ hother => ?_⟩
    · exact hclean value (Or.inr ⟨s, hs, hvalue⟩)
    · cases hother
      exact hollow s hs t ht key hhollow
  · exact fun value hvalue => hclean value (Or.inl hvalue)

/-! ## Outputs -/

/-- Where each member of an object is one of two others', what stands in it stands in one of them. -/
theorem Json.Holds.of_members {members first second : Fragment} {key : String} {value : Json}
    (h : (object members).Holds key value) (hmem : ∀ e ∈ members, e ∈ first ∨ e ∈ second) :
    (object first).Holds key value ∨ (object second).Holds key value := by
  obtain ⟨inner, hin, hinner⟩ := h
  cases hin with
  | self =>
    exact (hmem _ hinner).imp (fun he => ⟨first, .self, he⟩) fun he => ⟨second, .self, he⟩
  | member he hin =>
    exact (hmem _ he).imp (fun he => ⟨inner, .member he hin, hinner⟩)
      fun he => ⟨inner, .member he hin, hinner⟩

namespace Generation

variable {generation : Generation}

/-- What is written over the fields of a document is what is put out without any. -/
theorem mem_of_mem_writeOver {fields : Fragment} {e : String × Json}
    (h : e ∈ generation.writeOver fields) : e ∈ fields ∨ e ∈ generation.writeOver [] := by
  rcases mem_writeOver h with h | rfl | rfl | ⟨rfl, hwebhooks⟩
  · exact Or.inl h
  · exact Or.inr (Entries.mem_of_get? (generation.member?_writeOver_components []))
  · exact Or.inr (Entries.mem_of_get? (generation.member?_writeOver_paths []))
  · exact Or.inr (Entries.mem_of_get? (generation.member?_writeOver_webhooks.trans (if_neg hwebhooks)))

end Generation

section Outputs

variable {version : Version} {definitions : List Definition} {output : Json}

/-- What stands in an output stands in the fields of the document, or was put out by the generation. -/
theorem Generates.holds (h : Generates version definitions output) {key : String} {value : Json}
    (hholds : output.Holds key value) :
    (∃ config, generateDocument config definitions = .ok output
        ∧ (Json.object config.toFragment).Holds key value)
      ∨ ∃ generation, Generation.ofDefinitions version.dialect definitions = .ok generation
        ∧ (Json.object (generation.writeOver [])).Holds key value := by
  cases h with
  | data h =>
    obtain ⟨generation, hof, rfl⟩ := generateData_eq_ok h
    exact Or.inr ⟨generation, hof, hholds⟩
  | components h =>
    unfold generateComponents at h
    cases hof : Generation.ofDefinitions version.dialect definitions with
    | error problem =>
      rw [hof] at h
      cases h
    | ok generation =>
      rw [hof] at h
      cases h
      have hmem : ∀ e ∈ [("components", Json.object generation.componentGroups)],
          e ∈ generation.writeOver [] ∨ e ∈ generation.writeOver [] := by
        intro e he
        rw [List.mem_singleton.mp he]
        exact Or.inl (Entries.mem_of_get? (generation.member?_writeOver_components []))
      exact Or.inr ⟨generation, rfl, (hholds.of_members hmem).elim id id⟩
  | document config hversion h =>
    obtain ⟨version', generation, hversion', hof, rfl⟩ := generateDocument_eq_ok h
    obtain rfl := Except.ok.inj (hversion'.symm.trans hversion)
    rcases hholds.of_members fun e => Generation.mem_of_mem_writeOver with hfields | hwritten
    · exact Or.inl ⟨config, h, hfields⟩
    · exact Or.inr ⟨generation, hof, hwritten⟩

/-- A composition without members in an output was given, with the document or with a definition, or a
hollow schema was compiled. -/
theorem Generates.holds_empty (h : Generates version definitions output) {key : String}
    (hkey : key ∈ compositionKeys) (hholds : output.Holds key (.array [])) :
    (∃ config, generateDocument config definitions = .ok output
        ∧ (Json.object config.toFragment).Holds key (.array []))
      ∨ (∃ d ∈ definitions, ∃ value, d.Gives value ∧ value.Holds key (.array []))
      ∨ ∃ d ∈ definitions, ∃ s ∈ d.schemas, ∃ t, s.Contains t ∧ t.site.Hollow key := by
  rcases h.holds hholds with hfields | ⟨generation, hof, members, hin, hmem⟩
  · exact Or.inl hfields
  · let allowed (key : String) : Prop :=
      (∃ d ∈ definitions, ∃ value, d.Gives value ∧ value.Holds key (.array []))
        ∨ ∃ d ∈ definitions, ∃ s ∈ d.schemas, ∃ t, s.Contains t ∧ t.site.Hollow key
    have lawful := compositionLaw_lawful allowed version.dialect
    have hadmits : ∀ d ∈ definitions, (compositionLaw allowed).Admits d := fun d hd =>
      d.admits_compositionLaw (fun value hvalue _ _ hempty => Or.inl ⟨d, hd, value, hvalue, hempty⟩)
        fun s hs t ht _ hhollow => Or.inr ⟨d, hd, s, hs, t, ht, hhollow⟩
    have hobeys := Generation.obeys_of_ofDefinitions lawful (fun _ => trivial) hadmits hof
    have hclosed := hobeys.closed_output lawful (fun _ => trivial) members hin
    exact Or.inr (hclosed.2 _ hmem key hkey rfl)

end Outputs

/-! ## Hollow schemas -/

namespace Schema

/-- A kind that has no members itself: a tuple without items, or alternatives without options. -/
inductive Kind.Memberless : Kind Schema → String → Prop
  | tuple : Memberless (.tuple []) "anyOf"
  | union : Memberless (.union []) "anyOf"
  | discriminatedUnion (name : String) : Memberless (.discriminatedUnion name []) "oneOf"

theorem Kind.Memberless.key_ne {kind : Kind Schema} {key : String} (h : kind.Memberless key) :
    key ≠ "allOf" := by
  cases h <;> decide

/-- A schema is hollow only if some schema in it has no members. Intersections are not hollow. -/
theorem exists_memberless {s : Schema} {piped nullable : Bool} {key : String}
    (h : (s.shape piped).Hollow nullable key) :
    ∃ u, s.Contains u ∧ u.kind.Memberless key := by
  induction s using induction generalizing piped nullable key with
  | step s ih =>
    -- Where the shape is that of a schema below, what has no members is found there.
    have under {t : Schema} (ht : t ∈ s.kind.schemas) {piped nullable : Bool} {key : String}
        (h : (t.shape piped).Hollow nullable key) : ∃ u, s.Contains u ∧ u.kind.Memberless key := by
      obtain ⟨u, hu, hmemberless⟩ := ih t (List.mem_append_left _ ht) h
      exact ⟨u, (Contains.of_kind ht).trans hu, hmemberless⟩
    obtain ⟨kind, description, label⟩ := s
    cases kind with
    | tuple items =>
      rw [shape] at h
      cases items with
      | nil =>
        cases h
        exact ⟨_, .refl _, .tuple⟩
      | cons first rest => cases h
    | union options =>
      rw [shape] at h
      cases options with
      | nil =>
        cases h
        exact ⟨_, .refl _, .union⟩
      | cons first rest =>
        -- The first option leaves no alternative, so it is a union of which none are left.
        generalize hsites : optionSites (first :: rest) = sites at h
        cases h
        rw [optionSites, List.append_eq_nil_iff] at hsites
        have hfirst := hsites.1
        unfold alternatives at hfirst
        split at hfirst
        · rename_i hshape
          have hhollow : (first.shape false).Hollow false "anyOf" := by
            rw [hshape, hfirst]
            exact .anyOf rfl
          exact under List.mem_cons_self hhollow
        · cases hfirst
    | discriminatedUnion name options =>
      rw [shape] at h
      cases options with
      | nil =>
        generalize Discriminator.object? name [] = discriminator at h
        cases h
        exact ⟨_, .refl _, .discriminatedUnion name⟩
      | cons first rest => cases h
    | intersection left right =>
      rw [shape] at h
      generalize hparts : left.conjuncts (left.shape false) ++ right.conjuncts (right.shape false)
        = parts at h
      cases h
      rw [List.append_eq_nil_iff] at hparts
      have hleft := hparts.1
      unfold conjuncts at hleft
      split at hleft
      · rename_i hshape
        have hhollow : (left.shape false).Hollow nullable "allOf" := by
          rw [hshape, hleft]
          exact .allOf
        exact under List.mem_cons_self hhollow
      · cases hleft
    | effects inner =>
      rw [shape] at h
      split at h
      · cases h
      · exact under List.mem_cons_self h
    | optional inner | nullable inner | default inner _ | branded inner _ | readonly inner =>
      rw [shape] at h
      exact under List.mem_cons_self h
    | pipeline input output =>
      rw [shape] at h
      exact under List.mem_cons_self h
    | object fields treatment catchall =>
      unfold shape at h
      dsimp only at h
      split at h <;> cases h
    | literal value =>
      rw [shape] at h
      unfold literalShape at h
      split at h <;> cases h
    | nativeEnum members =>
      rw [shape] at h
      unfold nativeEnumShape at h
      dsimp only at h
      split at h
      · cases h
      · split at h <;> cases h
    | _ =>
      unfold shape at h
      cases h

end Schema

/-! ## What hollow schemas are compiled to -/

/-- A fragment that has a composition without members, or one for its items. -/
def Fragment.Vacant (fragment : Fragment) (key : String) : Prop :=
  (key, .array []) ∈ fragment ∨ ("items", .object [(key, .array [])]) ∈ fragment

namespace Fragment.Vacant

variable {fragment : Fragment} {key : String}

theorem holds (h : fragment.Vacant key) : (Json.object fragment).Holds key (.array []) := by
  rcases h with h | h
  · exact ⟨fragment, .self, h⟩
  · exact ⟨[(key, .array [])], .member h .self, List.mem_singleton_self _⟩

/-- Document keys leave a composition as it is if none of them is written over it. -/
theorem overlay (h : fragment.Vacant key) {written : Fragment}
    (apart : ∀ place ∈ ["items", key], place ∉ Entries.keys written) :
    (Fragment.overlay fragment written).Vacant key := by
  refine h.imp (fun h => ?_) fun h => ?_
  · exact (mem_overlay_iff (apart key (by simp)) rfl).mpr h
  · exact (mem_overlay_iff (apart "items" (by simp)) rfl).mpr h

theorem withDefault (h : fragment.Vacant key) (hkey : key ∈ compositionKeys)
    (default : Option Json) : (Fragment.withDefault fragment default).Vacant key := by
  have hne : ∀ key ∈ compositionKeys, key ≠ "default" := by decide
  have hitems : "items" ≠ "default" := by decide
  unfold Fragment.withDefault
  split
  · split
    · exact h
    · exact h.imp (fun h => Entries.mem_insert_of_ne h (hne key hkey) _)
        fun h => Entries.mem_insert_of_ne h hitems _
  · exact h

end Fragment.Vacant

/-- A hollow shape is compiled to a composition without members, whatever is stored. -/
theorem Shape.Hollow.compile {shape : Shape} {nullable : Bool} {key : String}
    (h : shape.Hollow nullable key) (hkey : key ≠ "allOf") (dialect : Dialect)
    (default : Option Json) (store : Store Fragment) :
    ∃ body, shape.compile dialect nullable default store = .ok (body, store) ∧ body.Vacant key := by
  cases h with
  | tuple =>
    refine ⟨_, rfl, Or.inr (Entries.mem_of_get? ?_)⟩
    simp [arrayFragment, Entries.get?_insertSome, Entries.get?_insert, tupleItems, Json.distinct]
  | anyOf hnullable =>
    subst hnullable
    exact ⟨_, rfl, .withDefault (Or.inl List.mem_cons_self) (by decide) default⟩
  | oneOf telling hnullable =>
    subst hnullable
    refine ⟨_, rfl, .withDefault (Or.inl ?_) (by decide) default⟩
    cases telling <;> exact List.mem_cons_self
  | allOf => exact absurd rfl hkey

/-- A hollow site stores a composition without members under its identifier, if that is free. -/
theorem Site.vacant_of_hollow {t : Site} {key name : String} (hollow : t.Hollow key)
    (hkey : key ≠ "allOf") (hname : t.refId = some name)
    (apart : ∀ place ∈ ["items", key], place ∉ Entries.keys t.keys) {dialect : Dialect}
    {reply : Reply} {store after : Store Fragment} {answer : Fragment}
    (free : store.get? name = none) (h : t.compile dialect reply store = .ok (answer, after)) :
    ∃ stored, after.get? name = some stored ∧ stored.Vacant key := by
  obtain ⟨body, hbody, hvacant⟩ := hollow.2.compile hkey dialect t.default store
  rw [← Site.body_of_shape false hollow.1] at hbody
  refine ⟨Fragment.overlay body t.keys, ?_, hvacant.overlay apart⟩
  rw [Site.get?_of_fresh hname free hbody h, free, Option.none_or]

/-- Of the schemas that are compiled before one that stands between others, none comes across an
identifier. -/
structure Definition.Spare (before after : List Definition) (name : String) : Prop where
  plain : ∀ p, .plain p ∈ before ++ after → ¬ p.site.Names name
  earlier : ∀ u, .schema u ∈ before → ¬ u.site.Names name

section Run

variable {dialect : Dialect} {before after : List Definition} {s : Schema} {key name : String}

/-- A run of definitions that do not come across an identifier leaves it free. -/
theorem Generation.free_of_steps {definitions : List Definition} {mid : Generation}
    (hd : ∀ d ∈ definitions, ∀ registered, ¬ d.Stores registered name)
    (h : Generation.steps dialect {} definitions = .ok mid) : mid.schemas.get? name = none := by
  have hsteps := Generation.observed_steps (fun _ => True)
    (fun generation => generation.schemas.contains name = true) (fun _ => False)
    (fun d hmem generation next _ hstep =>
      ⟨trivial, (Generation.contains_stepsTo hstep name).trans
        (or_congr_right (iff_false_intro (hd d hmem _)))⟩) trivial h
  cases hget : mid.schemas.get? name with
  | none => rfl
  | some stored =>
    rcases hsteps.2.mp (Store.contains_of_get? hget) with hempty | ⟨_, _, hnone⟩
    · cases hempty
    · exact hnone.elim

/-- A hollow schema that is the first to come across its identifier is stored as a composition without
members. -/
theorem Generation.vacant_of_hollow {generation : Generation} (hollow : s.site.Hollow key)
    (hkey : key ≠ "allOf") (hname : s.refId? = some name)
    (apart : ∀ place ∈ ["items", key], place ∉ Entries.keys s.documentKeys)
    (spare : Definition.Spare before after name)
    (h : Generation.ofDefinitions dialect (before ++ .schema s :: after) = .ok generation) :
    ∃ stored, generation.schemas.get? name = some stored ∧ stored.Vacant key := by
  obtain ⟨rest, horder, _⟩ := Definition.byRank_move before after s
  rw [Generation.ofDefinitions, horder, ← List.append_assoc] at h
  obtain ⟨mid, hearlier, hrun⟩ := Generation.steps_append_eq_ok.mp h
  obtain ⟨next, hstep, hrest⟩ := Generation.steps_cons_eq_ok hrun
  have hfree : mid.schemas.get? name = none := by
    refine Generation.free_of_steps (fun d hd registered => ?_) hearlier
    rcases List.mem_append.mp hd with hd | hd
    · obtain ⟨p, rfl, hp⟩ := Definition.mem_plains.mp hd
      exact spare.plain p hp
    · obtain ⟨u, rfl, hu⟩ := Definition.mem_schemas.mp hd
      exact spare.earlier u hu
  cases hstep with
  | schema hact =>
    obtain ⟨stored, hstored, hvacant⟩ :=
      Site.vacant_of_hollow hollow hkey hname apart hfree hact
    exact ⟨stored, Store.get?_of_le (Generation.schemas_le_of_steps hrest) hstored, hvacant⟩

end Run

/-! ## Compositions without members -/

/-- Where a composition in an output has no members, it was given as it is, with the document or with a
definition, or a hollow schema was compiled: a tuple without items, or alternatives without options
where null is not accepted either. So no `allOf` is without members, and no composition is unless a
schema is in itself. Conversely a hollow schema that is the first to come across its identifier, and
whose document keys do not say otherwise, is found under it as a composition without members. -/
theorem empty_compositions_traced {version : Version} {definitions : List Definition} {output : Json}
    (h : Generates version definitions output) {key : String} (hkey : key ∈ compositionKeys) :
    (output.Holds key (.array []) →
        (∃ config, generateDocument config definitions = .ok output
          ∧ (Json.object config.toFragment).Holds key (.array []))
        ∨ (∃ d ∈ definitions, ∃ value, d.Gives value ∧ value.Holds key (.array []))
        ∨ key ≠ "allOf" ∧ ∃ d ∈ definitions, ∃ s ∈ d.schemas, ∃ t, s.Contains t ∧ t.site.Hollow key
            ∧ ∃ u, t.Contains u ∧ u.kind.Memberless key)
      ∧ ∀ before s after name, definitions = before ++ .schema s :: after → s.site.Hollow key →
          s.refId? = some name → Definition.Spare before after name →
          (∀ place ∈ ["items", key], place ∉ Entries.keys s.documentKeys) →
          ∃ component, output.component? "schemas" name = some component
            ∧ component.Holds key (.array []) := by
  constructor
  · intro hholds
    rcases h.holds_empty hkey hholds with hfields | hgiven | ⟨d, hd, s, hs, t, ht, hhollow⟩
    · exact Or.inl hfields
    · exact Or.inr (Or.inl hgiven)
    · obtain ⟨u, hu, hmemberless⟩ := Schema.exists_memberless hhollow.2
      exact Or.inr (Or.inr ⟨hmemberless.key_ne, d, hd, s, hs, t, ht, hhollow, u, hu, hmemberless⟩)
  · rintro before s after name rfl hhollow hname spare apart
    obtain ⟨generation, hof, hcomponents⟩ := h.generation
    obtain ⟨u, _, hmemberless⟩ := Schema.exists_memberless hhollow.2
    obtain ⟨stored, hstored, hvacant⟩ :=
      Generation.vacant_of_hollow hhollow hmemberless.key_ne hname apart spare hof
    have hempty : ({} : Generation).schemas.Unique := List.nodup_nil
    refine ⟨.object stored, ?_, hvacant.holds⟩
    rw [← Generation.component?_of_get? (Generation.unique_of_steps hempty hof) hstored,
      Json.component?, hcomponents, Json.component?, generation.member?_writeOver_components]

/-- A tuple without items has no item schemas in common, so its items may be any of none. -/
theorem empty_tuple_vacant :
    let empty := (Schema.ofKind (.tuple [])).named "T"
    let written : Json := .object [("type", .string "array"),
      ("items", .object [("anyOf", .array [])]), ("minItems", .nat 0), ("maxItems", .nat 0)]
    ∃ output, Generates .v310 [.schema empty] output
      ∧ output.component? "schemas" "T" = some written ∧ written.Holds "anyOf" (.array []) := by
  intro empty written
  obtain ⟨output, houtput⟩ : ∃ output, generateData .v310 [.schema empty] = .ok output := ⟨_, rfl⟩
  have spare : Definition.Spare [] [] "T" :=
    ⟨fun p hp => absurd hp List.not_mem_nil, fun u hu => absurd hu List.not_mem_nil⟩
  have hhollow : empty.site.Hollow "anyOf" := ⟨rfl, .tuple⟩
  have hapart : ∀ place ∈ ["items", "anyOf"], place ∉ Entries.keys empty.documentKeys :=
    fun place _ => List.not_mem_nil
  obtain ⟨component, hcomponent, hholds⟩ :=
    (empty_compositions_traced (.data houtput) (by decide : "anyOf" ∈ compositionKeys)).2 [] empty []
      "T" rfl hhollow rfl spare hapart
  have hwritten : output.component? "schemas" "T" = some written := by
    cases houtput
    rfl
  refine ⟨output, .data houtput, hwritten, ?_⟩
  cases hwritten.symm.trans hcomponent
  exact hholds

end OpenApi
