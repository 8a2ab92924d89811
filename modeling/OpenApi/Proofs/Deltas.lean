/-
# OpenApi.Proofs.Deltas -- a schema in use again adds only what its component does not say

Where an identifier is stored, the answer is a reference to the component, with a delta if there is
something beyond it. The delta is taken against the fragment that is stored at that point, before
anything below the site is compiled. As what is stored stays, and is written over finished
components in the end, the delta adds to the component of the final output just as well.

The statement is about every compilation of a site that is made in the course of a run.
`Compile.Passes` says that such a call is made while a computation runs: a sequence makes the calls
of its first part, and those of what follows from where the first part has led.
-/
import OpenApi.Proofs.Outcome

namespace OpenApi

/-! ## What one fragment adds to another -/

namespace Fragment

/-- No key of a delta is null, and none has the value that it has in the stored fragment. -/
def AddsTo (delta stored : Fragment) : Prop :=
  ∀ e ∈ delta, e.2.isNull = false
    ∧ ∀ value, Entries.get? stored e.1 = some value → value.same e.2 = false

variable {delta later stored : Fragment}

theorem addsTo_without (fragment stored : Fragment) : AddsTo (without fragment stored) stored := by
  intro e he
  have hkept := (List.mem_filter.mp he).2
  cases hget : Entries.get? stored e.1 with
  | none => simp_all
  | some value => simp_all

theorem AddsTo.extend (h : AddsTo delta stored) (hlater : AddsTo later stored) :
    AddsTo (Entries.extend delta later) stored := by
  intro e he
  rcases Entries.mem_extend he with he | he
  · exact hlater e he
  · exact h e he

theorem AddsTo.nonNull (h : AddsTo delta stored) : AddsTo (nonNull delta) stored :=
  fun e he => h e (List.mem_filter.mp he).1

end Fragment

/-- Where its identifier is stored, a site is answered with the reference alone, or with a delta that
adds to what is stored. -/
theorem Site.answer_addsTo {dialect : Dialect} {reply : Reply} {t : Site}
    {store after : Store Fragment} {answer stored : Fragment} {name : String}
    (hname : t.refId = some name) (hstored : store.get? name = some stored)
    (h : t.compile dialect reply store = .ok (answer, after)) :
    answer = Reference.toSchema name
      ∨ ∃ delta, answer = Fragment.referenceAnd name delta ∧ delta ≠ [] ∧ delta.AddsTo stored := by
  have hsaid (found : Fragment) : (t.said found).AddsTo found := Fragment.addsTo_without _ _
  have hfree {other : String} (hother : t.refId = some other) : store.get? other ≠ none := by
    rw [Option.some.inj (hother.symm.trans hname), hstored]
    exact Option.some_ne_none stored
  cases Site.compile_eq_ok_iff.mp h with
  | @retyped other found hother hfound htype =>
    cases hother.symm.trans hname
    cases hfound.symm.trans hstored
    refine Or.inr ⟨_, rfl, ?_, hsaid stored⟩
    intro hnil
    rw [hnil] at htype
    cases htype
  | @reused other found body _ hother hfound _ _ =>
    cases hother.symm.trans hname
    cases hfound.symm.trans hstored
    unfold beside Fragment.referenceWith
    split
    · exact Or.inl rfl
    · rename_i hsome
      refine Or.inr ⟨_, rfl, fun hnil => hsome (by rw [hnil]; rfl), ?_⟩
      exact ((Fragment.addsTo_without body stored).extend (hsaid stored)).nonNull
  | unnamed hnone _ =>
    rw [hname] at hnone
    cases hnone
  | taken hother hnone _ _ => exact absurd hnone (hfree hother)
  | stored hother hnone _ _ => exact absurd hnone (hfree hother)

/-! ## Calls in the course of a run -/

/-- A compilation of a site that came to an end. -/
structure Site.Call where
  site : Site
  reply : Reply
  before : Store Fragment
  answer : Fragment
  after : Store Fragment

/-- The call ends as it says. -/
def Site.Call.Ends (dialect : Dialect) (call : Site.Call) : Prop :=
  call.site.compile dialect call.reply call.before = .ok (call.answer, call.after)

/-- A call is made while a computation runs from a store. What follows the first part of a sequence
only adds to the store, as it does in every computation of a run. -/
inductive Compile.Passes (dialect : Dialect) (call : Site.Call) :
    ∀ {α : Type}, Compile α → Store Fragment → Prop
  | site : call.Ends dialect →
      Passes dialect call (call.site.compile dialect call.reply) call.before
  | first {α β : Type} {c : Compile α} {k : α → Compile β} {store : Store Fragment} :
      Passes dialect call c store → (∀ a, Compile.Grows (k a)) → Passes dialect call (c >>= k) store
  | next {α β : Type} {c : Compile α} {k : α → Compile β} {store mid : Store Fragment} {a : α} :
      c store = .ok (a, mid) → Passes dialect call (k a) mid → Passes dialect call (c >>= k) store
  | mapProblem {α : Type} {f : Problem → Problem} {c : Compile α} {store : Store Fragment} :
      Passes dialect call c store → Passes dialect call (Compile.mapProblem f c) store

/-- A call is made while one definition is compiled. -/
inductive Definition.Passes (dialect : Dialect) (call : Site.Call) (generation : Generation) :
    Definition → Prop
  | plain {s : Schema} :
      Compile.Passes dialect call (s.site.compile dialect .fragment) generation.schemas →
      Passes dialect call generation (.plain s)
  | schema {s : Schema} :
      Compile.Passes dialect call (s.site.compile dialect .fragment) generation.schemas →
      Passes dialect call generation (.schema s)
  | parameter {s : Schema} :
      Compile.Passes dialect call (Parameter.register dialect generation.parameters s)
        generation.schemas →
      Passes dialect call generation (.parameter s)
  | route {r : Route} :
      Compile.Passes dialect call (r.compile dialect generation.parameters) generation.schemas →
      Passes dialect call generation (.route r)
  | webhook {r : Route} :
      Compile.Passes dialect call (r.compile dialect generation.parameters) generation.schemas →
      Passes dialect call generation (.webhook r)

/-- A call is made while definitions are compiled in the given order. -/
inductive Generation.Passes (dialect : Dialect) (call : Site.Call) :
    Generation → List Definition → Prop
  | here {generation : Generation} {d : Definition} {rest : List Definition} :
      d.Passes dialect call generation → Passes dialect call generation (d :: rest)
  | later {generation next : Generation} {d : Definition} {rest : List Definition} :
      generation.step dialect d = .ok next → Passes dialect call next rest →
      Passes dialect call generation (d :: rest)

section Runs

variable {dialect : Dialect} {call : Site.Call}

/-- What a call has stored is still there when the computation ends. -/
theorem Compile.Passes.ends {α : Type} {c : Compile α} {store after : Store Fragment} {a : α}
    (h : Passes dialect call c store) (hrun : c store = .ok (a, after)) :
    call.Ends dialect ∧ call.after ≤ after := by
  induction h generalizing after with
  | site hends =>
    cases hends.symm.trans hrun
    exact ⟨hends, le_refl _⟩
  | first _ hgrows ih =>
    obtain ⟨_, mid, hfirst, hnext⟩ := of_bind_ok hrun
    obtain ⟨hends, hle⟩ := ih hfirst
    exact ⟨hends, le_trans hle (hgrows _ _ _ _ hnext)⟩
  | next hfirst _ ih =>
    rw [bind_apply_ok hfirst] at hrun
    exact ih hrun
  | mapProblem _ ih => exact ih (mapProblem_apply_ok.mp hrun)

theorem Definition.Passes.ends {generation next : Generation} {d : Definition}
    (h : d.Passes dialect call generation) (hstep : Generation.StepsTo dialect generation d next) :
    call.Ends dialect ∧ call.after ≤ next.schemas := by
  cases h with
  | plain hpasses =>
    cases hstep with
    | plain hact => exact hpasses.ends hact
  | schema hpasses =>
    cases hstep with
    | schema hact => exact hpasses.ends hact
  | parameter hpasses =>
    cases hstep with
    | parameter hact => exact hpasses.ends hact
  | route hpasses =>
    cases hstep with
    | route hact => exact hpasses.ends hact
  | webhook hpasses =>
    cases hstep with
    | webhook _ hact => exact hpasses.ends hact

/-- What a call has stored is still there when all definitions are compiled. -/
theorem Generation.Passes.ends {generation final : Generation} {definitions : List Definition}
    (h : Passes dialect call generation definitions)
    (hrun : generation.steps dialect definitions = .ok final) :
    call.Ends dialect ∧ call.after ≤ final.schemas := by
  induction h with
  | here hpasses =>
    obtain ⟨next, hstep, hrest⟩ := steps_cons_eq_ok hrun
    obtain ⟨hends, hle⟩ := hpasses.ends hstep
    exact ⟨hends, le_trans hle (schemas_le_of_steps hrest)⟩
  | later hstep _ ih =>
    rw [steps, hstep] at hrun
    exact ih hrun

end Runs

/-! ## Calls for the sites below -/

/-- Wherever a computation comes to an end, a site has been compiled in its course. -/
def Compile.Visits (dialect : Dialect) (u : Site) {α : Type} (c : Compile α) : Prop :=
  ∀ store a after, c store = .ok (a, after) →
    ∃ call : Site.Call, call.site = u ∧ Compile.Passes dialect call c store

theorem Compile.inclusive_visits {dialect : Dialect} {u : Site} :
    Compile.Inclusive (@Compile.Visits dialect u) where
  first hc hk := by
    intro store b after h
    obtain ⟨a, mid, ha, _⟩ := of_bind_ok h
    obtain ⟨call, hsite, hpasses⟩ := hc store a mid ha
    exact ⟨call, hsite, .first hpasses hk⟩
  rest hk := by
    intro store b after h
    obtain ⟨a, mid, ha, hb⟩ := of_bind_ok h
    obtain ⟨call, hsite, hpasses⟩ := hk a mid b after hb
    exact ⟨call, hsite, .next ha hpasses⟩

/-- Compiling a site makes a call for every site that it reaches. -/
theorem Site.visits_of_reaches {dialect : Dialect} {t u : Site} (h : t.Reaches u) (reply : Reply) :
    Compile.Visits dialect u (t.compile dialect reply) := by
  induction h generalizing reply with
  | refl t => exact fun store answer after h => ⟨⟨t, reply, store, answer, after⟩, rfl, .site h⟩
  | step hc _ ih => exact includes_compile Compile.inclusive_visits hc ih

/-- A run makes a call for every site that a submitted schema reaches. -/
theorem Generation.passes_of_reaches {dialect : Dialect} {generation final : Generation}
    {definitions : List Definition} {s : Schema} {u : Site}
    (hrun : generation.steps dialect definitions = .ok final)
    (hd : Definition.schema s ∈ definitions) (hu : s.site.Reaches u) :
    ∃ call : Site.Call, call.site = u ∧ Generation.Passes dialect call generation definitions := by
  induction definitions generalizing generation with
  | nil => cases hd
  | cons d rest ih =>
    obtain ⟨next, hstep, hrest⟩ := steps_cons_eq_ok hrun
    rcases List.mem_cons.mp hd with rfl | hd
    · cases hstep with
      | schema hact =>
        obtain ⟨call, hsite, hpasses⟩ := Site.visits_of_reaches hu .fragment _ _ _ hact
        exact ⟨call, hsite, .here (.schema hpasses)⟩
    · obtain ⟨call, hsite, hpasses⟩ := ih hrest hd
      exact ⟨call, hsite, .later (step_of_stepsTo hstep) hpasses⟩

/-! ## Deltas against the final output -/

/-- Wherever in a run a schema is compiled whose identifier is stored by then, the answer is the bare
reference, or `allOf` of the reference and a delta. The delta is not empty, none of its values is
null, and none is the one that the component of the final output has under the same key. What is
stored under the identifier stays as it was. -/
theorem delta_minimal {version : Version} {definitions : List Definition} {output : Json}
    (h : generateData version definitions = .ok output) {call : Site.Call}
    (hcall : Generation.Passes version.dialect call {} (Definition.byRank definitions))
    {name : String} {stored : Fragment} (hname : call.site.refId = some name)
    (hstored : call.before.get? name = some stored) :
    (call.answer = Reference.toSchema name
        ∨ ∃ delta, call.answer = Fragment.referenceAnd name delta ∧ delta ≠ []
          ∧ delta.AddsTo stored)
      ∧ call.after.get? name = some stored
      ∧ output.component? "schemas" name = some (.object stored) := by
  obtain ⟨final, hfinal, rfl⟩ := generateData_eq_ok h
  obtain ⟨hends, hle⟩ := hcall.ends hfinal
  have hafter : call.after.get? name = some stored :=
    Store.get?_of_le (call.site.grows_compile call.reply _ _ _ hends) hstored
  have hempty : ({} : Generation).schemas.Unique := List.nodup_nil
  have hunique : final.schemas.Unique := Generation.unique_of_steps hempty hfinal
  exact ⟨Site.answer_addsTo hname hstored hends, hafter,
    Generation.component?_of_get? hunique (Store.get?_of_le hle hafter)⟩

/-- A named string that is used again as nullable: only the type is said again. -/
theorem nullable_use_adds_type :
    let text := (Schema.ofKind (.string [])).named "X"
    let plain : Fragment := [("type", .string "string")]
    let schemas : Store Fragment := ⟨[("X", plain)]⟩
    let delta : Fragment := [("type", .array [.string "string", .string "null"])]
    text.nullable.site.compile .types .fragment schemas
        = .ok (Fragment.referenceAnd "X" delta, schemas)
      ∧ (∃ added, Fragment.referenceAnd "X" delta = Fragment.referenceAnd "X" added
        ∧ added ≠ [] ∧ added.AddsTo plain)
      ∧ ∃ output, generateData .v310 [.schema text, .schema text.nullable] = .ok output
        ∧ output.component? "schemas" "X" = some (.object plain) := by
  intro text plain schemas delta
  have hends : text.nullable.site.compile .types .fragment schemas
      = .ok (Fragment.referenceAnd "X" delta, schemas) := rfl
  have hrun : generateData .v310 [.schema text, .schema text.nullable]
      = .ok (.object (({ schemas := schemas } : Generation).writeOver [])) := rfl
  have hstep : ({} : Generation).step .types (.schema text) = .ok { schemas := schemas } := rfl
  have hcall : Generation.Passes .types
      ⟨text.nullable.site, .fragment, schemas, Fragment.referenceAnd "X" delta, schemas⟩ {}
      [.schema text, .schema text.nullable] := .later hstep (.here (.schema (.site hends)))
  obtain ⟨hanswer, _, hcomponent⟩ := delta_minimal hrun hcall rfl rfl
  have hbare : Fragment.referenceAnd "X" delta ≠ Reference.toSchema "X" := fun h =>
    absurd (congrArg Entries.keys h) (by decide)
  exact ⟨hends, hanswer.resolve_left hbare, _, hrun, hcomponent⟩

end OpenApi
