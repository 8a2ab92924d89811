/-
# OpenApi.Proofs.Outcome -- whether a compilation comes to an end, and what it has stored then

What is stored changes how a site is answered, but not which sites are visited. So whether a
compilation ends with a problem, and with which, is a matter of the site alone
(`Site.sameProblem`), and where it comes to an end it has stored exactly the identifiers that the
site comes across (`Site.contains_compile_iff`). The dialect has no part in either.

The same holds of definitions. A generation that steps through a definition from one state steps
through it from every state with the same signatures of parameters.
-/
import OpenApi.Proofs.OperationTree
import OpenApi.Proofs.Turns

namespace OpenApi

/-! ## Problems -/

namespace Compile

/-- The problem that a computation ends with, if it ends with one. -/
def problem? {α : Type} (c : Compile α) (store : Store Fragment) : Option Problem :=
  match c store with
  | .error problem => some problem
  | .ok _ => none

/-- Two computations end with the same problem, or without one, whatever is stored. -/
def SameProblem {α : Type} (c c' : Compile α) : Prop :=
  ∀ store store', c.problem? store = c'.problem? store'

variable {α β : Type} {c : Compile α} {store : Store Fragment}

theorem problem?_of_error {problem : Problem} (h : c store = .error problem) :
    c.problem? store = some problem := by
  rw [problem?, h]

theorem problem?_of_ok {p : α × Store Fragment} (h : c store = .ok p) : c.problem? store = none := by
  rw [problem?, h]

theorem exists_ok_of_problem? (h : c.problem? store = none) : ∃ a after, c store = .ok (a, after) := by
  cases hc : c store with
  | error problem =>
    rw [problem?_of_error hc] at h
    cases h
  | ok p => exact ⟨p.1, p.2, rfl⟩

theorem parallel_sameProblem : Parallel @SameProblem where
  pure _ _ := fun _ _ => rfl
  fail _ := fun _ _ => rfl
  bind := by
    intro α β c c' k k' hc hk store store'
    have hsame := hc store store'
    -- If the first computation fails, so does the second, and neither rest is run.
    cases hrun : c store with
    | error problem =>
      rw [problem?_of_error hrun] at hsame
      cases hrun' : c' store' with
      | error problem' =>
        rw [problem?_of_error hrun'] at hsame
        rw [problem?_of_error (bind_apply_error hrun), problem?_of_error (bind_apply_error hrun')]
        exact hsame
      | ok p =>
        rw [problem?_of_ok hrun'] at hsame
        cases hsame
    | ok p =>
      rw [problem?_of_ok hrun] at hsame
      obtain ⟨a', mid', hrun'⟩ := exists_ok_of_problem? hsame.symm
      unfold problem?
      rw [bind_apply_ok hrun, bind_apply_ok hrun']
      exact hk p.1 a' p.2 mid'
  mapProblem := by
    intro α f c c' hc store store'
    have hmap (c : Compile α) (store : Store Fragment) :
        (mapProblem f c).problem? store = (c.problem? store).map f := by
      unfold problem? mapProblem
      cases c store <;> rfl
    rw [hmap, hmap, hc store store']

end Compile

namespace Site

variable {dialect dialect' : Dialect} {t : Site} {reply : Reply} {store after : Store Fragment}

/-- Compiling a site ends with a problem only where what stands for its shape does. -/
theorem problem?_compile (dialect : Dialect) (reply : Reply) (t : Site) (store : Store Fragment) :
    (t.compile dialect reply).problem? store
      = (t.body dialect (t.refId.bind store.get?).isSome).problem? store := by
  unfold Compile.problem?
  cases hs : t.refId.bind store.get? with
  | none =>
    rw [compile_of_fresh hs, Option.isSome_none]
    cases hbody : t.body dialect false store with
    | error problem => rw [Compile.bind_apply_error hbody]
    | ok p =>
      obtain ⟨a, ha⟩ := define_run t.refId (Fragment.overlay p.1 t.keys) reply p.2
      rw [Compile.bind_apply_ok hbody, ha]
  | some stored =>
    obtain ⟨name, hname, hget⟩ := Option.bind_eq_some_iff.mp hs
    rw [compile_of_stored hname hget, Option.isSome_some]
    by_cases hsaid : Entries.contains (t.said stored) "type" = true
    · -- The shape is not compiled, and it would not have been: the keys have a type.
      obtain ⟨type, htype⟩ := override?_of_said hsaid
      rw [if_pos hsaid, body_of_override true htype]
      rfl
    · rw [if_neg hsaid]
      cases hbody : t.body dialect true store with
      | error problem => rw [Compile.bind_apply_error hbody]
      | ok p =>
        rw [Compile.bind_apply_ok hbody]
        rfl

/-- Neither what is stored nor the dialect decides whether a site compiles. -/
theorem sameProblem (t : Site) (reply reply' : Reply) :
    Compile.SameProblem (t.compile dialect reply) (t.compile dialect' reply') := by
  induction t using Site.induction generalizing reply reply' with
  | step t ih =>
    -- The two sites may be compiled at different stages, so the bodies may differ in `beside`.
    intro store store'
    rw [problem?_compile, problem?_compile]
    exact body_parallel Compile.parallel_sameProblem _ _
      (fun c hc => ih c hc .reference .reference) (fun c hc _ => ih c hc .fragment .fragment)
      store store'

end Site

/-! ## What has been stored -/

namespace Compile

/-- A property that a sequence has if its first part has it and what follows only adds to the store,
or if what follows has it. -/
structure Inclusive (P : ∀ {α : Type}, Compile α → Prop) : Prop where
  first : ∀ {α β : Type} {c : Compile α} {k : α → Compile β},
    P c → (∀ a, Grows (k a)) → P (c >>= k)
  rest : ∀ {α β : Type} {c : Compile α} {k : α → Compile β}, (∀ a, P (k a)) → P (c >>= k)

/-- A computation that comes to an end only in stores with some property. -/
def Attains (Q : Store Fragment → Prop) {α : Type} (c : Compile α) : Prop :=
  ∀ store a after, c store = .ok (a, after) → Q after

/-- What was attained in between still holds when the rest of a sequence only adds to the store. -/
theorem inclusive_attains {Q : Store Fragment → Prop}
    (mono : ∀ {store after : Store Fragment}, store ≤ after → Q store → Q after) :
    Inclusive (@Attains Q) where
  first hc hk := by
    intro store b after h
    obtain ⟨a, mid, ha, hb⟩ := of_bind_ok h
    exact mono (hk a mid b after hb) (hc store a mid ha)
  rest hk := by
    intro store b after h
    obtain ⟨a, mid, _, hb⟩ := of_bind_ok h
    exact hk a mid b after hb

end Compile

/-- What holds of compiling one of the sites that are compiled in turn holds of the sequence. -/
theorem Compile.InTurn.includes {P : ∀ {α : Type}, Compile α → Prop} (hP : Compile.Inclusive @P)
    {dialect : Dialect} {α : Type} {parts : List Part} {problem? : Option Problem} {act : Compile α}
    (h : InTurn dialect parts problem? act) {c : Site} (hc : c ∈ parts.map Part.site)
    (compiled : ∀ reply, P (c.compile dialect reply)) : P act := by
  induction h with
  | pure _ | fail _ => cases hc
  | answered t reply =>
    rw [List.mem_singleton.mp hc] at compiled
    exact compiled reply
  | dropped t reply =>
    rw [List.mem_singleton.mp hc] at compiled
    exact hP.first (compiled reply) fun _ => grows_sequential.pure ()
  | bind _ hk ihfirst ihsecond =>
    rw [List.map_append] at hc
    rcases List.mem_append.mp hc with hc | hc
    · exact hP.first (ihfirst hc) fun a => (hk a).grows
    · exact hP.rest fun a => ihsecond a hc

/-- Every child of a shape is compiled when the shape is. -/
theorem Shape.includes_compile {P : ∀ {α : Type}, Compile α → Prop} (hP : Compile.Inclusive @P)
    {dialect : Dialect} {c : Site} (compiled : ∀ reply, P (c.compile dialect reply)) {shape : Shape}
    (nullable : Bool) (default : Option Json) (hc : c ∈ shape.children) :
    P (shape.compile dialect nullable default) := by
  rw [← shape.sites_parts] at hc
  exact (shape.inTurn_compile nullable default).includes hP hc compiled

namespace Site

variable {dialect : Dialect} {t : Site} {reply : Reply} {store after : Store Fragment}
  {answer : Fragment} {name : String}

theorem contains_of_refId (h : t.compile dialect reply store = .ok (answer, after))
    (hname : t.refId = some name) : after.contains name = true := by
  cases hget : store.get? name with
  | some stored =>
    exact Store.contains_of_le (t.grows_compile reply _ _ _ h) (Store.contains_of_get? hget)
  | none =>
    obtain ⟨body, mid, _, _, rfl⟩ := exists_body_of_free hname hget h
    exact Store.contains_define _ _ _

theorem grows_define (reply : Reply) (refId : Option String) (result : Fragment) :
    Compile.Grows (define reply refId result) := by
  intro store answer after h
  obtain ⟨_, hdefine⟩ := define_run refId result reply store
  cases hdefine.symm.trans h
  cases refId with
  | none => exact le_refl store
  | some name => exact Store.le_define store name result

/-- Every child of a site is compiled when the site is. -/
theorem includes_compile {P : ∀ {α : Type}, Compile α → Prop} (hP : Compile.Inclusive @P) {c : Site}
    (hc : c ∈ t.children) (compiled : ∀ reply, P (c.compile dialect reply)) :
    P (t.compile dialect reply) := by
  obtain ⟨hover, hshape⟩ := mem_children hc
  obtain ⟨refId, keys, nullable, default, shape⟩ := t
  have hover : Entries.get? keys "type" = none := hover
  have hbody : P (shape.compile dialect nullable default) :=
    Shape.includes_compile hP compiled nullable default hshape
  rw [compile, hover]
  refine hP.rest fun found => ?_
  rcases found with _ | ⟨name, stored⟩
  · exact hP.first hbody fun body => grows_define reply refId _
  · have hsaid : Entries.contains (Fragment.without keys stored) "type" = false := by
      by_contra h
      -- A site with a type among its keys has no children.
      obtain ⟨type, htype⟩ :=
        override?_of_said (t := .mk refId keys nullable default shape) (Bool.of_not_eq_false h)
      cases hover.symm.trans htype
    simp only [hsaid]
    exact hP.first hbody fun body => Compile.grows_sequential.pure _

theorem attains_of_names (hn : t.Names name) (reply : Reply) :
    Compile.Attains (fun store => store.contains name = true) (t.compile dialect reply) := by
  obtain ⟨u, hu, hname⟩ := hn
  induction hu generalizing reply with
  | refl u => exact fun store answer after h => contains_of_refId h hname
  | step hc _ ih =>
    have mono {store after : Store Fragment} (hle : store ≤ after)
        (h : store.contains name = true) : after.contains name = true := Store.contains_of_le hle h
    exact includes_compile (Compile.inclusive_attains mono) hc fun reply => ih reply hname

/-- Compiling a site stores every identifier that it comes across. -/
theorem contains_of_names (h : t.compile dialect reply store = .ok (answer, after))
    (hn : t.Names name) : after.contains name = true := attains_of_names hn reply store answer after h

/-- After a site has been compiled, what is stored are the identifiers from before and those that
the site comes across. -/
theorem contains_compile_iff (h : t.compile dialect reply store = .ok (answer, after)) :
    after.contains name = true ↔ store.contains name = true ∨ t.Names name := by
  constructor
  · intro hafter
    by_cases hn : t.Names name
    · exact Or.inr hn
    · rw [Store.contains_eq_isSome, get?_compile h hn] at hafter
      exact Or.inl hafter
  · rintro (hstore | hn)
    · exact Store.contains_of_le (t.grows_compile reply _ _ _ h) hstore
    · exact contains_of_names h hn

end Site

/-! ## Definitions -/

namespace Parameter

variable {dialect dialect' : Dialect} {registered registered' : Store Fragment}

/-- A registration gives the same signature whatever the schema has become. -/
theorem Alike.register (h : Alike registered registered') {s : Schema}
    {store after store' after' updated updated' : Store Fragment}
    (hrun : Parameter.register dialect registered s store = .ok (updated, after))
    (hrun' : Parameter.register dialect' registered' s store' = .ok (updated', after')) :
    Alike updated updated' := by
  obtain ⟨signature, hdeclared, _, _, hupdated⟩ := of_register hrun
  obtain ⟨signature', hdeclared', _, _, hupdated'⟩ := of_register hrun'
  rw [hdeclared] at hdeclared'
  cases hdeclared'
  intro refId
  rw [hupdated, hupdated', h refId]

end Parameter

namespace Generation

/-- Two steps end with the same problem, or both lead on, to parameters that are alike. -/
inductive Matches : Except Problem Generation → Except Problem Generation → Prop
  | error (problem : Problem) : Matches (.error problem) (.error problem)
  | ok {next next' : Generation} :
      Parameter.Alike next.parameters next'.parameters → Matches (.ok next) (.ok next')

variable {dialect dialect' : Dialect} {generation generation' : Generation}

theorem matches_run {α : Type} {act act' : Compile α} (h : Compile.SameProblem act act')
    {f : α × Generation → Generation}
    (hf : ∀ a a' schemas schemas', act generation.schemas = .ok (a, schemas) →
      act' generation'.schemas = .ok (a', schemas') →
      Parameter.Alike (f (a, { generation with schemas := schemas })).parameters
        (f (a', { generation' with schemas := schemas' })).parameters) :
    Matches (generation.run act >>= fun p => .ok (f p)) (generation'.run act' >>= fun p => .ok (f p)) := by
  have hsame := h generation.schemas generation'.schemas
  unfold run
  cases hrun : act generation.schemas with
  | error problem =>
    rw [Compile.problem?_of_error hrun] at hsame
    cases hrun' : act' generation'.schemas with
    | error problem' =>
      rw [Compile.problem?_of_error hrun'] at hsame
      cases hsame
      exact .error problem
    | ok p =>
      rw [Compile.problem?_of_ok hrun'] at hsame
      cases hsame
  | ok p =>
    rw [Compile.problem?_of_ok hrun] at hsame
    obtain ⟨a', schemas', hrun'⟩ := Compile.exists_ok_of_problem? hsame.symm
    rw [hrun']
    exact .ok (hf p.1 a' p.2 schemas' hrun hrun')

/-- Which definitions a generation steps through depends on nothing but the parameters that are
registered, and on webhooks being there or not. -/
theorem matches_step (alike : Parameter.Alike generation.parameters generation'.parameters)
    (d : Definition) (webhooks : dialect.hasWebhooks = dialect'.hasWebhooks ∨ ∀ r, d ≠ .webhook r) :
    Matches (generation.step dialect d) (generation'.step dialect' d) := by
  have sites (s : Schema) (_ : True) : Compile.SameProblem (s.site.compile dialect .reference)
      (s.site.compile dialect' .reference) := s.site.sameProblem .reference .reference
  have hschema (s : Schema) :
      Matches ((generation.run (s.site.compile dialect .fragment)).map (·.2))
        ((generation'.run (s.site.compile dialect' .fragment)).map (·.2)) :=
    matches_run (f := (·.2)) (s.site.sameProblem .fragment .fragment) fun _ _ _ _ _ _ => alike
  have hroute (r : Route) := Route.compile_parallel Compile.parallel_sameProblem
    Schema.hereditary_true sites alike fun s (_ : s ∈ r.schemas) => trivial
  cases d with
  | plain s => exact hschema s
  | schema s => exact hschema s
  | parameter s =>
    exact matches_run (f := fun p => { p.2 with parameters := p.1 })
      (Parameter.register_parallel Compile.parallel_sameProblem sites alike trivial)
      fun _ _ _ _ hrun hrun' => alike.register hrun hrun'
  | component c => exact .ok alike
  | route r =>
    exact matches_run
      (f := fun p => { p.2 with paths := p.2.paths.put r.path r.method p.1 }) (hroute r)
      fun _ _ _ _ _ _ => alike
  | webhook r =>
    rcases webhooks with hsame | hno
    · unfold step
      dsimp only
      rw [hsame]
      cases dialect'.hasWebhooks with
      | false => exact .error _
      | true =>
        exact matches_run
          (f := fun p => { p.2 with webhooks := p.2.webhooks.put r.path r.method p.1 }) (hroute r)
          fun _ _ _ _ _ _ => alike
    · exact absurd rfl (hno r)

theorem matches_steps (alike : Parameter.Alike generation.parameters generation'.parameters)
    (definitions : List Definition)
    (webhooks : dialect.hasWebhooks = dialect'.hasWebhooks
      ∨ ∀ d ∈ definitions, ∀ r, d ≠ .webhook r) :
    Matches (generation.steps dialect definitions) (generation'.steps dialect' definitions) := by
  induction definitions generalizing generation generation' with
  | nil => exact .ok alike
  | cons d rest ih =>
    have hd := matches_step alike d (webhooks.imp_right fun h => h d List.mem_cons_self)
    rw [steps, steps]
    generalize generation.step dialect d = result at hd
    generalize generation'.step dialect' d = result' at hd
    cases hd with
    | error problem => exact .error problem
    | ok halike =>
      exact ih halike (webhooks.imp_right fun h d hd => h d (List.mem_cons_of_mem _ hd))

end Generation

end OpenApi
