/-
# OpenApi.Proofs.Pipelines -- what stands at the input of a pipeline

Where an effects wrapper is the input of a pipeline, what the pipeline is compiled to is what the schema
under the wrapper is compiled to at that point (`Schema.compile_of_pipedFrom`). It is compiled as a schema
of its own, so its identifier is stored, and the answer depends on whether it was stored before.

If it was not, the answer is the whole fragment (`Site.answer_of_free`). If it was, the answer is a
reference like everywhere else. So a pipeline over a named schema points to that schema just in case the
schema was there before: the first pipeline is written in place, the ones after it are not.
-/
import OpenApi.Proofs.Defaults
import OpenApi.Proofs.Outcome

namespace OpenApi

/-! ## References at the top of a fragment -/

namespace Fragment

variable {fragment : Fragment} {name : String}

/-- A fragment refers to a named schema by a key of its own, or by a part of its `allOf` that does. -/
def PointsTo (fragment : Fragment) (name : String) : Prop :=
  ("$ref", .string (Reference.schemaPath name)) ∈ fragment
    ∨ ∃ parts part, ("allOf", .array parts) ∈ fragment ∧ .object part ∈ parts
      ∧ ("$ref", .string (Reference.schemaPath name)) ∈ part

theorem pointsTo_toSchema (name : String) : (Reference.toSchema name).PointsTo name :=
  Or.inl List.mem_cons_self

theorem pointsTo_referenceAnd (name : String) (delta : Fragment) :
    (referenceAnd name delta).PointsTo name :=
  Or.inr ⟨_, Reference.toSchema name, List.mem_cons_self, List.mem_cons_self, List.mem_cons_self⟩

theorem pointsTo_referenceWith (name : String) (delta : Fragment) :
    (referenceWith name delta).PointsTo name := by
  unfold referenceWith
  split
  · exact pointsTo_toSchema name
  · exact pointsTo_referenceAnd name delta

theorem PointsTo.refersTo (h : fragment.PointsTo name) (supplied : Fragment → Prop) :
    fragment.RefersTo supplied name := by
  rcases h with hmem | ⟨parts, part, hparts, hpart, hmem⟩
  · exact Or.inl ⟨fragment, .self, hmem⟩
  · exact Or.inl ⟨part, .member hparts (.item hpart .self), hmem⟩

theorem pointsTo_overlay_iff {written : Fragment}
    (hwritten : ∀ key ∈ composingKeys, key ∉ Entries.keys written) :
    (overlay fragment written).PointsTo name ↔ fragment.PointsTo name := by
  have hreference : ("$ref", Json.string (Reference.schemaPath name)) ∈ overlay fragment written
      ↔ ("$ref", Json.string (Reference.schemaPath name)) ∈ fragment :=
    mem_overlay_iff (hwritten "$ref" (by decide)) rfl
  have hparts (parts : List Json) : ("allOf", Json.array parts) ∈ overlay fragment written
      ↔ ("allOf", Json.array parts) ∈ fragment :=
    mem_overlay_iff (hwritten "allOf" (by decide)) rfl
  simp only [PointsTo, hreference, hparts]

end Fragment

/-- No stored fragment points to itself. -/
theorem Store.Ordered.not_pointsTo_self {supplied : Fragment → Prop} {store : Store Fragment}
    (h : store.Ordered supplied) {name : String} {fragment : Fragment}
    (hget : store.get? name = some fragment) : ¬ fragment.PointsTo name :=
  fun hpoints => h.acyclic name (.single ⟨fragment, hget, hpoints.refersTo supplied⟩)

/-- At every point of a generation from sound definitions the named schemas are ordered. -/
theorem Generation.Leads.ordered {dialect : Dialect} {supplied : Fragment → Prop}
    {generation : Generation} (h : Leads dialect (Definition.Sound supplied) {} generation) :
    generation.schemas.Ordered supplied := by
  apply Store.ordered_of_settled
  · exact h.unique List.nodup_nil
  · exact h.proper fun e he => absurd he List.not_mem_nil
  · exact (h.obeys Generation.obeys_empty).schemas

/-- A schema without links and without values given with it is sound. -/
theorem Definition.sound_plain {s : Schema} (h : ∀ t, s.Contains t → t.given = [] ∧ t.link? = none)
    (supplied : Fragment → Prop) : (Definition.plain s).Sound supplied := by
  have hgives : ∀ value, ¬ (Definition.plain s).Gives value := by
    rintro value (hvalue | ⟨u, hu, t, ht, hvalue⟩)
    · cases hvalue
    · rw [List.mem_singleton.mp hu] at ht
      rw [(h t ht).1] at hvalue
      cases hvalue
  refine ⟨⟨?_, fun value hvalue => absurd hvalue (hgives value)⟩,
    fun value hvalue => absurd hvalue (hgives value)⟩
  intro u hu t ht link hlink
  rw [List.mem_singleton.mp hu] at ht
  rw [(h t ht).2] at hlink
  cases hlink

/-! ## Named sites -/

/-- A site whose identifier is free is answered with the whole of what it becomes. It is stored under the
identifier, unless a site below has taken that in between. -/
theorem Site.answer_of_free {dialect : Dialect} {t : Site} {store after : Store Fragment}
    {name : String} {answer : Fragment} (hname : t.refId = some name)
    (hfree : store.get? name = none)
    (h : t.compile dialect .fragment store = .ok (answer, after)) :
    ∃ body mid, t.body dialect false store = .ok (body, mid)
      ∧ answer = Fragment.overlay body t.keys
      ∧ ((∀ c ∈ t.children, ¬ c.Names name) → after.get? name = some answer) := by
  obtain ⟨body, mid, hbody, hdefine, _⟩ := exists_body_of_free hname hfree h
  have hanswer : answer = Fragment.overlay body t.keys := by
    cases hget : mid.get? name with
    | some old =>
      rw [define_of_get?_some _ hget] at hdefine
      cases hdefine
      rfl
    | none =>
      rw [define_of_get?_none _ hget] at hdefine
      cases hdefine
      rfl
  refine ⟨body, mid, hbody, hanswer, fun hbelow => ?_⟩
  rw [get?_of_fresh hname hfree hbody h, get?_body hbody hbelow, hfree, hanswer]
  rfl

/-! ## Pipelines -/

namespace Schema

/-- A pipeline whose input is an effects wrapper around the given schema, or again such a pipeline. -/
inductive PipedFrom (inner : Schema) : Schema → Prop
  | effects {input output : Schema} {description : Option String} {label : Option (Label Schema)} :
      input.kind = .effects inner → PipedFrom inner (node (.pipeline input output) description label)
  | pipeline {input output : Schema} {description : Option String} {label : Option (Label Schema)} :
      PipedFrom inner input → PipedFrom inner (node (.pipeline input output) description label)

variable {inner s : Schema}

theorem PipedFrom.shape_eq (h : PipedFrom inner s) (piped : Bool) :
    s.shape piped = .inline inner.site := by
  induction h generalizing piped with
  | @effects input output description label hinput =>
    obtain ⟨kind, _, _⟩ := input
    cases hinput
    rfl
  | pipeline _ ih =>
    rw [shape]
    exact ih true

/-- An unnamed pipeline is compiled to what the schema under the effects wrapper is compiled to at this
point, under the document keys of the pipeline. -/
theorem compile_of_pipedFrom (piped : PipedFrom inner s) (unnamed : s.refId? = none)
    (untyped : s.typeOverride? = none) {dialect : Dialect} {reply : Reply}
    {store after : Store Fragment} {answer : Fragment}
    (h : s.site.compile dialect reply store = .ok (answer, after)) :
    ∃ fragment, inner.site.compile dialect .fragment store = .ok (fragment, after)
      ∧ answer = Fragment.overlay fragment s.documentKeys := by
  obtain ⟨body, hbody, rfl⟩ := answer_of_shape unnamed untyped h
  rw [piped.shape_eq, Shape.compile] at hbody
  exact ⟨body, hbody, rfl⟩

/-- What an unnamed pipeline is compiled to, at any point of a generation, where its innermost input is an
effects wrapper around a named schema. If the pipeline has a type of its own, that is all that is written.
Otherwise the schema is stored in any case. If it was not stored before, it is written as a whole, and
otherwise as a reference, with what is said beyond it. So the pipeline points to the schema if that was
stored before, and, where nothing below the schema has its name, only then. -/
theorem piped_effects_point_iff (piped : PipedFrom inner s) {name : String}
    (named : inner.refId? = some name) (unnamed : s.refId? = none) {dialect : Dialect}
    {supplied : Fragment → Prop} {generation : Generation}
    (reachable : Generation.Leads dialect (Definition.Sound supplied) {} generation)
    (sound : (Definition.plain s).Sound supplied) {reply : Reply} {after : Store Fragment}
    {answer : Fragment}
    (h : s.site.compile dialect reply generation.schemas = .ok (answer, after)) :
    (∀ type, s.typeOverride? = some type →
        answer = Fragment.overlay [("type", type)] s.documentKeys ∧ after = generation.schemas)
      ∧ (s.typeOverride? = none →
        after.contains name = true
        ∧ ∃ fragment,
          inner.site.compile dialect .fragment generation.schemas = .ok (fragment, after)
          ∧ answer = Fragment.overlay fragment s.documentKeys
          ∧ (generation.schemas.get? name = none →
            ∃ body mid, inner.site.body dialect false generation.schemas = .ok (body, mid)
              ∧ fragment = Fragment.overlay body inner.documentKeys)
          ∧ (∀ stored, generation.schemas.get? name = some stored →
            ∃ delta, fragment = Fragment.referenceWith name delta)
          ∧ ((∀ key ∈ Fragment.composingKeys, key ∉ Entries.keys s.documentKeys) →
            (generation.schemas.contains name = true → answer.PointsTo name)
            ∧ ((∀ c ∈ inner.site.children, ¬ c.Names name) →
              answer.PointsTo name → generation.schemas.contains name = true))) := by
  have hname : inner.site.refId = some name := named
  refine ⟨fun type htype => ?_, fun untyped => ?_⟩
  · obtain ⟨body, hbody, rfl⟩ := Site.answer_of_unnamed (t := s.site) unnamed h
    rw [Site.body_of_override (t := s.site) false htype] at hbody
    obtain ⟨rfl, rfl⟩ := Compile.of_pure_ok hbody
    exact ⟨rfl, rfl⟩
  obtain ⟨fragment, hinner, hanswer⟩ := compile_of_pipedFrom piped unnamed untyped h
  have hstored (stored : Fragment) (hget : generation.schemas.get? name = some stored) :
      ∃ delta, fragment = Fragment.referenceWith name delta :=
    Site.answer_of_stored hname hget hinner
  refine ⟨Site.contains_of_refId hinner hname, fragment, hinner, hanswer, fun hfree => ?_, hstored,
    fun plain => ?_⟩
  · obtain ⟨body, mid, hbody, hfragment, -⟩ := Site.answer_of_free hname hfree hinner
    exact ⟨body, mid, hbody, hfragment⟩
  rw [hanswer, Fragment.pointsTo_overlay_iff plain, Store.contains_eq_isSome]
  cases hget : generation.schemas.get? name with
  | some stored =>
    obtain ⟨delta, rfl⟩ := hstored stored hget
    exact ⟨fun _ => Fragment.pointsTo_referenceWith name delta, fun _ _ => rfl⟩
  | none =>
    refine ⟨fun hnone => absurd hnone Bool.false_ne_true, fun hbelow hpoints => ?_⟩
    -- The call that compiled the pipeline leads to a generation in which the fragment is stored.
    have hleads : Generation.Leads dialect (Definition.Sound supplied) {}
        { generation with schemas := after } := reachable.tail (.site sound (.refl s.site) h)
    obtain ⟨_, _, _, _, hafter⟩ := Site.answer_of_free hname hget hinner
    exact absurd hpoints (hleads.ordered.not_pointsTo_self (hafter hbelow))

/-- A named string under an effects wrapper in a pipeline, compiled twice. What was written in place at
first is a reference then. -/
theorem second_pipeline_points :
    let inner := (ofKind (.string [])).named "Inner"
    let s := inner.refine.pipe (ofKind (.number []))
    let text : Fragment := [("type", .string "string")]
    let later : Generation := { schemas := ⟨[("Inner", text)]⟩ }
    PipedFrom inner s ∧ inner.refId? = some "Inner" ∧ s.refId? = none ∧ s.typeOverride? = none
      ∧ Generation.Leads .types (Definition.Sound fun _ => False) {} later
      ∧ (Definition.plain s).Sound (fun _ => False)
      ∧ s.site.compile .types .fragment {} = .ok (text, later.schemas)
      ∧ s.site.compile .types .fragment later.schemas
        = .ok (Reference.toSchema "Inner", later.schemas)
      ∧ (Reference.toSchema "Inner").PointsTo "Inner" := by
  intro inner s text later
  have hleaf {u : Schema} (hchildren : u.children = []) : ∀ t, u.Contains t → t = u := by
    intro t ht
    rcases contains_iff.mp ht with h | ⟨c, hc, _⟩
    · exact h
    · rw [hchildren] at hc
      cases hc
  have hbare : ∀ t, s.Contains t → t.given = [] ∧ t.link? = none := by
    intro t ht
    rcases contains_iff.mp ht with rfl | ⟨c, hc, ht⟩
    · exact ⟨rfl, rfl⟩
    have hc : c ∈ [inner.refine, ofKind (.number [])] := hc
    simp only [List.mem_cons, List.not_mem_nil, or_false] at hc
    rcases hc with rfl | rfl
    · rcases contains_iff.mp ht with rfl | ⟨c, hc, ht⟩
      · exact ⟨rfl, rfl⟩
      · have hc : c ∈ [inner] := hc
        rw [List.mem_singleton.mp hc] at ht
        rw [hleaf rfl t ht]
        exact ⟨rfl, rfl⟩
    · rw [hleaf rfl t ht]
      exact ⟨rfl, rfl⟩
  have hsound : (Definition.plain s).Sound (fun _ => False) := Definition.sound_plain hbare _
  have hpiped : PipedFrom inner s := .effects rfl
  have hfirst : s.site.compile .types .fragment {} = .ok (text, later.schemas) := rfl
  have hsecond : s.site.compile .types .fragment later.schemas
      = .ok (Reference.toSchema "Inner", later.schemas) := rfl
  have hleads : Generation.Leads .types (Definition.Sound fun _ => False) {} later :=
    .single (.site hsound (.refl s.site) hfirst)
  obtain ⟨-, _, -, -, -, -, hpoints⟩ :=
    (piped_effects_point_iff hpiped rfl rfl hleads hsound hsecond).2 rfl
  refine ⟨hpiped, rfl, rfl, rfl, hleads, hsound, hfirst, hsecond, ?_⟩
  exact (hpoints fun _ _ => List.not_mem_nil).1 rfl

end Schema

end OpenApi
