/-
# OpenApi.Proofs.Nullability -- whether what a schema compiles to says that null is accepted

A schema without identifiers, links and document keys is written out in full, and what is written
says whether null is accepted. `Schema.stated` is the schema that it says it of. That is the
schema itself, but for one case: an effects wrapper that is the input of a pipeline is compiled
in place, from the schema under it and from nothing else, so that a nullable wrapper around the
pipeline is not heard there.

So a fragment is marked just in case the stated schema accepts null (`Schema.marked_as_stated`), and
it can be too strict, but never too lax: where the stated schema accepts null the whole one does.

The proof goes by sites. `Shape.Tuned` is what has to fit between the null that a site accepts and
the null that the sites under it accept, and settling a schema tunes every site.
-/
import OpenApi.Proofs.NullMarks

namespace OpenApi

/-! ## Sites -/

/-- Whether what a site compiles to marks null: a site that is compiled in place speaks for
itself. -/
def Site.marks : Site → Bool
  | .mk _ _ nullable _ shape =>
    match shape with
    | .inline site => site.marks
    | _ => nullable

/-- What a shape and the sites under it require of the null that is accepted. -/
def Shape.Tuned (nullable : Bool) : Shape → Prop
  | null | anything => nullable = true
  | anyOf options | oneOf options _ => ∀ option ∈ options, option.nullable = true → nullable = true
  | allOf parts => nullable = false → ∃ part ∈ parts, part.nullable = false
  | inline site => site.nullable = true → nullable = true
  | extension .. => False
  | _ => True

theorem Shape.Tuned.mono {small large : Bool} (h : small = true → large = true) {shape : Shape}
    (ht : shape.Tuned small) : shape.Tuned large := by
  cases shape with
  | null => exact h ht
  | anything => exact h ht
  | anyOf options => exact fun option hoption hnull => h (ht option hoption hnull)
  | oneOf options discriminator => exact fun option hoption hnull => h (ht option hoption hnull)
  | allOf parts =>
    intro hlarge
    apply ht
    cases small with
    | false => rfl
    | true => exact absurd (h rfl) (by simp [hlarge])
  | inline site => exact fun hnull => h (ht hnull)
  | extension members refId parent base baseRequired => exact ht
  | _ => trivial

/-- A site without an identifier, with no keys but a description, and tuned. -/
structure Site.Unadorned (t : Site) : Prop where
  unnamed : t.refId = none
  described : ∀ e ∈ t.keys, e.1 = "description"
  wired : t.shape.Wired False fun _ => True
  tuned : t.shape.Tuned t.nullable

namespace Site

variable {t : Site}

theorem Unadorned.override? (h : t.Unadorned) : t.override? = none := by
  cases hover : t.override? with
  | none => rfl
  | some type => exact absurd (h.described _ (Entries.mem_of_get? hover)) (by simp)

theorem Unadorned.children (h : t.Unadorned) : t.children = t.shape.children :=
  children_eq h.override?

theorem marks_of_inline {c : Site} (h : t.shape = .inline c) : t.marks = c.marks := by
  obtain ⟨refId, keys, nullable, default, shape⟩ := t
  cases h
  rw [marks]

theorem marks_of_not_inline (h : ∀ c, t.shape ≠ .inline c) : t.marks = t.nullable := by
  obtain ⟨refId, keys, nullable, default, shape⟩ := t
  rw [marks]
  · rfl
  · exact h

/-- A site marks null only if it accepts null. -/
theorem nullable_of_marks (h : ∀ u, t.Reaches u → u.Unadorned) (hmarks : t.marks = true) :
    t.nullable = true := by
  induction t using Site.induction with
  | step t ih =>
    have here := h t (.refl t)
    by_cases hinline : ∃ c, t.shape = .inline c
    · obtain ⟨c, hc⟩ := hinline
      have hchild : c ∈ t.children := by
        rw [here.children, hc]
        exact List.mem_singleton_self c
      have htuned := here.tuned
      rw [hc] at htuned
      rw [marks_of_inline hc] at hmarks
      exact htuned (ih c hchild (fun u hu => h u (.step hchild hu)) hmarks)
    · rwa [marks_of_not_inline fun c hc => hinline ⟨c, hc⟩] at hmarks

end Site

/-! ## What sites and shapes compile to -/

/-- The values that sites are compiled to in order satisfy what the answers do one by one. -/
theorem Shape.ends_compileAll {dialect : Dialect} {good : Site → Json → Prop} {sites : List Site}
    (h : ∀ c ∈ sites, Compile.Ends (fun answer => good c (.object answer))
      (c.compile dialect .reference)) :
    Compile.Ends (List.Forall₂ good sites) (compileAll dialect sites) := by
  induction sites with
  | nil =>
    rw [compileAll]
    exact .pure .nil
  | cons first rest ih =>
    rw [compileAll]
    refine (h first List.mem_cons_self).bind fun answer hanswer => ?_
    refine (ih fun c hc => h c (List.mem_cons_of_mem _ hc)).bind fun values hvalues => ?_
    exact .pure (.cons hanswer hvalues)

/-- A value marks null just in case the site does that it comes from. -/
def Site.Stands (dialect : Dialect) (t : Site) (value : Json) : Prop :=
  NullMarked dialect value ↔ t.marks = true

variable {dialect : Dialect} {sites : List Site} {values : List Json}

theorem exists_marks_of_nullMarked (h : List.Forall₂ (Site.Stands dialect) sites values)
    {value : Json} (hvalue : value ∈ values) (hmarked : NullMarked dialect value) :
    ∃ c ∈ sites, c.marks = true := by
  induction h with
  | nil => cases hvalue
  | cons hfirst _ ih =>
    rcases List.mem_cons.mp hvalue with rfl | hvalue
    · exact ⟨_, List.mem_cons_self, hfirst.mp hmarked⟩
    · obtain ⟨c, hc, hmarks⟩ := ih hvalue
      exact ⟨c, List.mem_cons_of_mem _ hc, hmarks⟩

theorem exists_unmarked_of_marks (h : List.Forall₂ (Site.Stands dialect) sites values) {c : Site}
    (hc : c ∈ sites) (hmarks : c.marks = false) : ∃ value ∈ values, ¬ NullMarked dialect value := by
  induction h with
  | nil => cases hc
  | cons hfirst _ ih =>
    rcases List.mem_cons.mp hc with rfl | hc
    · exact ⟨_, List.mem_cons_self, fun hmarked => by simp [hfirst.mp hmarked] at hmarks⟩
    · obtain ⟨value, hvalue, hunmarked⟩ := ih hc
      exact ⟨value, List.mem_cons_of_mem _ hvalue, hunmarked⟩

/-- What a shape becomes marks null as its site does, if the sites under it are answered so. -/
theorem Shape.ends_decides {t : Site} (here : t.Unadorned)
    (lax : ∀ c ∈ t.shape.children, c.marks = true → c.nullable = true)
    (children : ∀ c ∈ t.shape.children, ∀ reply,
      Compile.Ends (Fragment.Decides dialect (c.marks = true)) (c.compile dialect reply)) :
    Compile.Ends (Fragment.Decides dialect (t.marks = true))
      (t.shape.compile dialect t.nullable t.default) := by
  have htuned := here.tuned
  have hwired := here.wired
  have written (h : ∀ c, t.shape ≠ .inline c) {body : Fragment}
      (hbody : body.Decides dialect (t.nullable = true)) :
      body.Decides dialect (t.marks = true) := by
    rwa [Site.marks_of_not_inline h]
  have listed {sites : List Site} (h : ∀ c ∈ sites, c ∈ t.shape.children) :
      Compile.Ends (List.Forall₂ (Site.Stands dialect) sites) (compileAll dialect sites) :=
    ends_compileAll fun c hc store answer after hrun =>
      (children c (h c hc) .reference store answer after hrun).marked
  generalize hshape : t.shape = shape at htuned hwired written listed lax children
  cases shape with
  | null =>
    rw [compile]
    exact .pure (written (by simp) (Dialect.decides_nullFragment.congr (iff_of_true trivial htuned)))
  | anything =>
    have hnullable : t.nullable = true := htuned
    rw [compile, hnullable]
    exact .pure (written (by simp) (Dialect.decides_anything.congr (iff_of_true trivial hnullable)))
  | scalar type checks keys =>
    rw [compile]
    exact .pure (written (by simp)
      (decides_scalarFragment t.nullable t.default hwired.1 checks fun e he => (hwired.2.2 e he).1))
  | object members =>
    rw [compile]
    exact .after fun _ => .after fun _ => .pure (written (by simp) (decides_objectFragment ..))
  | extension members refId parent base baseRequired => exact htuned.elim
  | array element least most =>
    rw [compile]
    exact .after fun _ =>
      .pure (written (by simp) ((decides_arrayFragment ..).withDefault t.default))
  | tuple items =>
    rw [compile]
    exact .after fun _ => .pure (written (by simp) (decides_arrayFragment ..))
  | anyOf options =>
    rw [compile]
    refine (listed fun _ hc => hc).bind fun compiled hcompiled => ?_
    refine .pure (written (by simp) (.withDefault (decides_anyOfFragment _ ?_) _))
    intro value hvalue hmarked
    obtain ⟨c, hc, hmarks⟩ := exists_marks_of_nullMarked hcompiled hvalue hmarked
    exact htuned c hc (lax c hc hmarks)
  | oneOf options discriminator =>
    rw [compile]
    refine (listed fun _ hc => hc).bind fun compiled hcompiled => ?_
    have hbody (telling : Option Json) := decides_oneOfFragment t.nullable telling
      fun value hvalue (hmarked : NullMarked dialect value) => by
        obtain ⟨c, hc, hmarks⟩ := exists_marks_of_nullMarked hcompiled hvalue hmarked
        exact htuned c hc (lax c hc hmarks)
    cases hnullable : t.nullable with
    | true =>
      rw [hnullable] at hbody
      exact .pure (written (by simp) (by simpa [hnullable] using (hbody none).withDefault t.default))
    | false =>
      rw [hnullable] at hbody
      cases discriminator with
      | ok telling =>
        exact .pure (written (by simp) (by simpa [hnullable] using (hbody telling).withDefault t.default))
      | error problem => exact .fail problem
  | allOf parts =>
    rw [compile]
    refine (listed fun _ hc => hc).bind fun compiled hcompiled => ?_
    refine .pure (written (by simp) (.withDefault (decides_allOfFragment _ ?_) _))
    intro hnullable
    obtain ⟨part, hpart, hstrict⟩ := htuned hnullable
    apply exists_unmarked_of_marks hcompiled hpart
    exact Bool.eq_false_iff.mpr fun hmarks => by simp [lax part hpart hmarks] at hstrict
  | dictionary value =>
    rw [compile]
    exact .after fun _ =>
      .pure (written (by simp) ((decides_dictionaryFragment ..).withDefault t.default))
  | inline site =>
    rw [compile, Site.marks_of_inline hshape]
    exact children site List.mem_cons_self .fragment
  | invalid problem =>
    rw [compile]
    exact .fail problem

/-- The answer for an unadorned site marks null just in case the site does. -/
theorem Site.ends_decides (t : Site) (h : ∀ u, t.Reaches u → u.Unadorned) :
    ∀ reply, Compile.Ends (Fragment.Decides dialect (t.marks = true)) (t.compile dialect reply) := by
  induction t using Site.induction with
  | step t ih =>
    intro reply store answer after hrun
    have here := h t (.refl t)
    have below {c : Site} (hc : c ∈ t.shape.children) : ∀ u, c.Reaches u → u.Unadorned :=
      fun u hu => h u (.step (here.children ▸ hc) hu)
    have hbody : Compile.Ends (Fragment.Decides dialect (t.marks = true))
        (t.shape.compile dialect t.nullable t.default) := by
      apply Shape.ends_decides here
      · exact fun c hc => nullable_of_marks (below hc)
      · exact fun c hc => ih c (here.children ▸ hc) (below hc)
    obtain ⟨body, hend, rfl⟩ := answer_of_unnamed here.unnamed hrun
    rw [body_of_shape false here.override?] at hend
    refine (hbody _ _ _ hend).overlay fun e he => ?_
    rw [here.described e he]
    decide

/-! ## Schemas -/

namespace Schema

/-- No node of a schema tree has an identifier, a link to an extended object, or document keys.
Descriptions and parameter data may be there. -/
def Bare (s : Schema) : Prop :=
  ∀ t, s.Contains t → ∀ label, t.label = some label →
    (∀ identity, label.identity = some identity →
        identity.refId = none ∧ identity.parent.isNone = true)
      ∧ ∀ metadata, label.metadata = some metadata → metadata.fields = []

/-- The schema that is compiled in place of another one: what is under an effects wrapper that
is the input of a pipeline. -/
def inPlace? (piped : Bool) : Schema → Option Schema
  | node (.effects inner) _ _ =>
    if piped then some ((inPlace? false inner).getD inner) else inPlace? false inner
  | node (.optional inner) _ _ => inPlace? false inner
  | node (.nullable inner) _ _ => inPlace? false inner
  | node (.default inner _) _ _ => inPlace? false inner
  | node (.branded inner _) _ _ => inPlace? false inner
  | node (.readonly inner) _ _ => inPlace? false inner
  | node (.pipeline input _) _ _ => inPlace? true input
  | _ => none

/-- The schema whose acceptance of null is stated where a schema is compiled. -/
def stated (s : Schema) : Schema := (inPlace? false s).getD s

theorem Bare.of_contains {s t : Schema} (h : s.Bare) (ht : s.Contains t) : t.Bare :=
  fun u hu => h u (ht.trans hu)

/-! ## Blank labels -/

/-- A label without an identifier, a link to an extended object, or document keys. -/
def Label.Blank (label : Label Schema) : Prop :=
  (∀ identity, label.identity = some identity →
      identity.refId = none ∧ identity.parent.isNone = true)
    ∧ ∀ metadata, label.metadata = some metadata → metadata.fields = []

section Blank

variable {s : Schema}

theorem link?_of_blank (h : ∀ label, s.label = some label → label.Blank) : s.link? = none := by
  unfold link?
  cases hlabel : s.label with
  | none => rfl
  | some label =>
    cases hidentity : label.identity with
    | none => simp [hidentity]
    | some identity =>
      have hparent := ((h label hlabel).1 identity hidentity).2
      simpa [hidentity] using hparent

theorem refId?_of_blank (h : ∀ label, s.visibleLabel = some label → label.Blank) :
    s.refId? = none := by
  unfold Schema.refId? identity?
  cases hlabel : s.visibleLabel with
  | none => rfl
  | some label =>
    cases hidentity : label.identity with
    | none => simp [hidentity]
    | some identity => simpa [hidentity] using ((h label hlabel).1 identity hidentity).1

theorem documentKeys_of_blank (h : ∀ label, s.visibleLabel = some label → label.Blank) :
    ∀ e ∈ s.documentKeys, e.1 = "description" := by
  refine described_of_fieldless fun own hown => ?_
  obtain ⟨label, hlabel, hmetadata⟩ := Option.bind_eq_some_iff.mp hown
  exact (h label hlabel).2 own hmetadata

end Blank

/-! ## What is accepted -/

theorem anyNullable_iff {options : List Schema} :
    anyNullable options = true ↔ ∃ option ∈ options, option.isNullable = true := by
  rw [anyNullable_eq, List.any_eq_true]

theorem isNullable_of_nonNullable {s : Schema} (h : s.nonNullable.isNullable = true) :
    s.isNullable = true := by
  obtain ⟨kind, description, label⟩ := s
  cases kind with
  | nullable inner => rw [isNullable]
  | _ => exact h

/-- What is compiled in place of a schema accepts null only where the schema does. -/
theorem isNullable_of_inPlace? {s t : Schema} (piped : Bool) (h : s.inPlace? piped = some t)
    (hnull : t.isNullable = true) : s.isNullable = true := by
  induction s using induction generalizing piped t with
  | step s ih =>
    obtain ⟨kind, description, label⟩ := s
    have below {inner : Schema} (hinner : inner ∈ kind.schemas) {piped : Bool}
        (h : inner.inPlace? piped = some t) : inner.isNullable = true :=
      ih inner (List.mem_append_left _ hinner) piped h hnull
    cases kind with
    | effects inner =>
      rw [isNullable]
      rw [inPlace?] at h
      split at h
      · cases hinner : inner.inPlace? false with
        | none =>
          rw [hinner] at h
          cases h
          exact hnull
        | some deeper =>
          rw [hinner] at h
          cases h
          exact below (List.mem_singleton_self inner) hinner
      · exact below (List.mem_singleton_self inner) h
    | nullable inner => rw [isNullable]
    | optional inner | default inner _ | branded inner _ | readonly inner =>
      rw [isNullable]
      rw [inPlace?] at h
      exact below (List.mem_singleton_self inner) h
    | pipeline input output =>
      rw [isNullable]
      rw [inPlace?] at h
      exact below List.mem_cons_self h
    | _ => cases h

theorem isNullable_of_stated {s : Schema} (h : s.stated.isNullable = true) :
    s.isNullable = true := by
  unfold stated at h
  cases hplace : s.inPlace? false with
  | none => rwa [hplace] at h
  | some t =>
    rw [hplace] at h
    exact isNullable_of_inPlace? false hplace h

/-! ## Sites of bare schemas -/

/-- Only what is compiled in place has the shape of it. -/
theorem shape_ne_inline {s : Schema} {piped : Bool} (h : s.inPlace? piped = none) (c : Site) :
    s.shape piped ≠ .inline c := by
  induction s using induction generalizing piped with
  | step s ih =>
    obtain ⟨kind, description, label⟩ := s
    have below {inner : Schema} (hinner : inner ∈ kind.schemas) {piped : Bool}
        (h : inner.inPlace? piped = none) : inner.shape piped ≠ .inline c :=
      ih inner (List.mem_append_left _ hinner) h
    cases kind with
    | effects inner =>
      rw [inPlace?] at h
      rw [shape]
      split at h
      · cases h
      · rw [if_neg ‹_›]
        exact below (List.mem_singleton_self inner) h
    | optional inner | nullable inner | default inner _ | branded inner _ | readonly inner =>
      rw [inPlace?] at h
      rw [shape]
      exact below (List.mem_singleton_self inner) h
    | pipeline input output =>
      rw [inPlace?] at h
      rw [shape]
      exact below List.mem_cons_self h
    | object fields treatment catchall =>
      unfold shape
      dsimp only
      split <;> simp [extensionShape]
    | literal value =>
      unfold shape literalShape
      split <;> simp
    | nativeEnum members =>
      unfold shape nativeEnumShape
      dsimp only
      split
      · simp
      · split <;> simp
    | _ =>
      unfold shape
      simp

/-- A site with the shape of a schema marks null as what is compiled in place of the schema, or
else as the site itself accepts it. -/
theorem marks_siteOf (s at_ : Schema) (piped : Bool) :
    (at_.siteOf (s.shape piped)).marks
      = (((s.inPlace? piped).map isNullable).getD at_.isNullable) := by
  induction s using induction generalizing piped at_ with
  | step s ih =>
    have below {inner : Schema} (hinner : inner ∈ s.kind.schemas) (at_ : Schema) (piped : Bool) :=
      ih inner (List.mem_append_left _ hinner) at_ piped
    cases hplace : s.inPlace? piped with
    | none => exact Site.marks_of_not_inline (shape_ne_inline hplace)
    | some t =>
      obtain ⟨kind, description, label⟩ := s
      cases kind with
      | effects inner =>
        rw [inPlace?] at hplace
        rw [shape]
        have hinner (at_ : Schema) := below (List.mem_singleton_self inner) at_ false
        split at hplace
        · rw [if_pos ‹_›, Site.marks_of_inline rfl, hinner]
          cases hplace
          cases inner.inPlace? false <;> rfl
        · rw [if_neg ‹_›, hinner, hplace]
      | optional inner | nullable inner | default inner _ | branded inner _ | readonly inner =>
        rw [inPlace?] at hplace
        rw [shape, below (List.mem_singleton_self inner), hplace]
      | pipeline input output =>
        rw [inPlace?] at hplace
        rw [shape, below List.mem_cons_self, hplace]
      | _ => cases hplace

theorem marks_site (s : Schema) : s.site.marks = s.stated.isNullable := by
  unfold site stated
  rw [marks_siteOf]
  cases s.inPlace? false <;> rfl

section Tuned

variable {s : Schema} {c : Site}

theorem tuned_alternatives (h : (s.shape false).Tuned s.isNullable)
    (hc : c ∈ s.alternatives (s.shape false)) (hnull : c.nullable = true) :
    s.isNullable = true := by
  unfold alternatives at hc
  split at hc
  · rename_i hshape
    rw [hshape] at h
    exact h c hc hnull
  · rw [List.mem_singleton.mp hc] at hnull
    exact isNullable_of_nonNullable hnull

theorem tuned_conjuncts (h : (s.shape false).Tuned s.isNullable) (hstrict : s.isNullable = false) :
    ∃ c ∈ s.conjuncts (s.shape false), c.nullable = false := by
  unfold conjuncts
  split
  · rename_i hshape
    rw [hshape] at h
    exact h hstrict
  · exact ⟨_, List.mem_singleton_self _, hstrict⟩

theorem Bare.link?_eq_none (h : s.Bare) : s.link? = none := link?_of_blank (h s (.refl s))

/-- The shape of a bare schema is tuned to whether the schema accepts null. -/
theorem tuned_shape (s : Schema) : s.Bare → ∀ piped, (s.shape piped).Tuned s.isNullable := by
  induction s using induction with
  | step s ih =>
    intro bare piped
    have below {t : Schema} (ht : t ∈ s.kind.schemas) (piped : Bool) :
        (t.shape piped).Tuned t.isNullable :=
      ih t (List.mem_append_left _ ht) (bare.of_contains (.of_kind ht)) piped
    have hlink := bare.link?_eq_none
    obtain ⟨kind, description, label⟩ := s
    cases kind with
    | object fields treatment catchall =>
      unfold shape
      dsimp only
      split
      · cases hlink
      · trivial
    | literal value =>
      rw [shape, isNullable]
      cases value <;> first | rfl | trivial
    | nativeEnum members =>
      unfold shape nativeEnumShape
      dsimp only
      split
      · trivial
      · split <;> trivial
    | union options =>
      rw [shape, isNullable, optionSites_eq]
      intro c hc hnull
      obtain ⟨option, hoption, hc⟩ := List.mem_flatMap.mp hc
      exact anyNullable_iff.mpr ⟨option, hoption, tuned_alternatives (below hoption false) hc hnull⟩
    | discriminatedUnion name options =>
      rw [shape, isNullable, sites_eq]
      intro c hc hnull
      obtain ⟨option, hoption, rfl⟩ := List.mem_map.mp hc
      exact anyNullable_iff.mpr ⟨option, hoption, hnull⟩
    | intersection left right =>
      rw [shape, isNullable]
      intro hstrict
      rcases Bool.and_eq_false_iff.mp hstrict with hleft | hright
      · obtain ⟨c, hc, hnull⟩ := tuned_conjuncts (below List.mem_cons_self false) hleft
        exact ⟨c, List.mem_append_left _ hc, hnull⟩
      · obtain ⟨c, hc, hnull⟩ :=
          tuned_conjuncts (below (List.mem_cons_of_mem _ List.mem_cons_self) false) hright
        exact ⟨c, List.mem_append_right _ hc, hnull⟩
    | effects inner =>
      rw [shape, isNullable]
      split
      · exact id
      · exact below (List.mem_singleton_self inner) false
    | nullable inner =>
      rw [shape, isNullable]
      exact (below (List.mem_singleton_self inner) false).mono fun _ => rfl
    | optional inner | default inner _ | branded inner _ | readonly inner =>
      rw [shape, isNullable]
      exact below (List.mem_singleton_self inner) false
    | pipeline input output =>
      rw [shape, isNullable]
      exact below List.mem_cons_self true
    | null | any | unknown => simp [shape, isNullable, Shape.Tuned]
    | _ =>
      unfold shape
      trivial

end Tuned

theorem Bare.visible {s : Schema} (h : s.Bare) {label : Label Schema}
    (hlabel : s.visibleLabel = some label) : label.Blank := by
  obtain ⟨t, ht, htlabel⟩ := exists_label hlabel
  exact h t ht label htlabel

/-- Every site that compiling a bare schema visits is unadorned. -/
theorem Bare.unadorned {s : Schema} (h : s.Bare) {u : Site} (hu : s.site.Reaches u) :
    u.Unadorned := by
  have hwired : u.Wired False (fun _ => True) fun _ => True :=
    wired_of_reaches trivial False.elim (fun _ _ _ _ _ _ => trivial) (fun _ _ => trivial) hu
  obtain ⟨t, ht, rfl⟩ := settled_of_reaches hu
  have hbare := h.of_contains ht
  exact ⟨refId?_of_blank fun _ => hbare.visible, documentKeys_of_blank fun _ => hbare.visible,
    hwired.shape, tuned_shape t hbare false⟩

/-- What a bare schema compiles to marks null just in case the stated schema accepts it, and then
the schema itself does. So the mark tells whether the schema accepts null just in case the stated
schema does so where the whole one does, and always where nothing is compiled in place. -/
theorem marked_as_stated {s : Schema} (bare : s.Bare) {dialect : Dialect} {reply : Reply}
    {store after : Store Fragment} {answer : Fragment}
    (h : s.site.compile dialect reply store = .ok (answer, after)) :
    (NullMarked dialect (.object answer) ↔ s.stated.isNullable = true)
      ∧ (s.stated.isNullable = true → s.isNullable = true)
      ∧ ((NullMarked dialect (.object answer) ↔ s.isNullable = true)
          ↔ (s.isNullable = true → s.stated.isNullable = true))
      ∧ (s.inPlace? false = none → (NullMarked dialect (.object answer) ↔ s.isNullable = true)) := by
  have hmarked : NullMarked dialect (.object answer) ↔ s.stated.isNullable = true := by
    have hdecides := s.site.ends_decides (fun u hu => bare.unadorned hu) reply store answer after h
    rw [← marks_site]
    exact hdecides.marked
  refine ⟨hmarked, isNullable_of_stated, ?_, fun hplace => ?_⟩
  · rw [hmarked]
    exact ⟨fun hiff => hiff.mpr, fun himp => ⟨isNullable_of_stated, himp⟩⟩
  · rw [hmarked, stated, hplace]
    exact Iff.rfl

theorem bare_ofKind {kind : Kind Schema} (h : ∀ c ∈ kind.schemas, c.Bare) :
    (ofKind kind).Bare := by
  intro t ht label hlabel
  rcases contains_iff.mp ht with rfl | ⟨c, hc, hct⟩
  · cases hlabel
  · have hkind : c ∈ kind.schemas := by simpa [children, link?, ofKind, Schema.kind, Schema.label] using hc
    exact h c hkind t hct label hlabel

/-- A nullable wrapper around a pipeline whose input is an effects wrapper is not heard. -/
theorem nullable_pipeline_unmarked :
    let string := ofKind (.string [])
    let s := (string.refine.pipe string).nullable
    s.isNullable = true ∧ s.stated = string
      ∧ (s.site.compile .types .fragment {}).map (·.1) = .ok [("type", .string "string")]
      ∧ ¬ NullMarked .types (.object [("type", .string "string")]) := by
  intro string s
  have hstring : string.Bare := bare_ofKind fun c hc => by cases hc
  have hrefine : string.refine.Bare := bare_ofKind fun c hc => List.mem_singleton.mp hc ▸ hstring
  have hpipe : (string.refine.pipe string).Bare := bare_ofKind fun c hc => by
    rcases List.mem_cons.mp hc with rfl | hc
    · exact hrefine
    · exact List.mem_singleton.mp hc ▸ hstring
  have bare : s.Bare := bare_ofKind fun c hc => List.mem_singleton.mp hc ▸ hpipe
  refine ⟨rfl, rfl, rfl, fun hmarked => ?_⟩
  have hrun : s.site.compile .types .fragment {} = .ok ([("type", .string "string")], {}) := rfl
  cases (marked_as_stated bare hrun).1.mp hmarked

end Schema

end OpenApi
