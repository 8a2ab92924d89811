/-
# OpenApi.Proofs.Problems -- the problems with which a compilation may end

A compilation raises only problems with some property, if each problem that may end one of its parts
has it: `Compile.Raises` passes to sequences, and the problem of a site is that of the shape of a site
that it visits. So a schema only ever raises a problem of one of its shapes (`Site.raises_compile`):
it is never a missing parameter key, and an operation that compiles a schema adds no such problem.

A generation ends with the problem of the first definition, by rank, that cannot be compiled.
-/
import OpenApi.Proofs.Outcome

namespace OpenApi

/-- A problem that is not a missing parameter key. -/
def Problem.Placeless (problem : Problem) : Prop := ∀ place, problem ≠ .missingParameter place

namespace Problem

theorem Placeless.locate {problem : Problem} (h : problem.Placeless)
    (complete : MissingParameter → MissingParameter) : problem.locate complete = problem := by
  cases problem with
  | missingParameter place => exact absurd rfl (h place)
  | _ => rfl

theorem placeless_unsupported (cause : Unsupported) : (unsupported cause).Placeless := nofun

theorem placeless_conflict (cause : Conflict) (key : ParameterKey) (values : List String) :
    (conflict cause key values).Placeless := nofun

theorem placeless_unknownKind (kind : String) (schema : Option String) :
    (unknownKind kind schema).Placeless := nofun

end Problem

/-! ## Raising -/

namespace Compile

variable {α β : Type} {P : Problem → Prop}

/-- A computation whose problem, wherever it ends with one, has a property. -/
def Raises (P : Problem → Prop) {α : Type} (c : Compile α) : Prop :=
  ∀ store problem, c store = .error problem → P problem

theorem Raises.pure (a : α) : Raises P (Pure.pure a : Compile α) := by
  intro store problem h
  cases h

theorem Raises.fail {problem : Problem} (h : P problem) :
    Raises P (Compile.fail problem : Compile α) := by
  intro store problem' h'
  cases h'
  exact h

theorem Raises.bind {c : Compile α} {k : α → Compile β} (hc : Raises P c)
    (hk : ∀ a, Raises P (k a)) : Raises P (c >>= k) := by
  intro store problem h
  rcases bind_eq_error_iff.mp h with h | ⟨a, mid, -, h⟩
  · exact hc store problem h
  · exact hk a mid problem h

theorem Raises.mono {Q : Problem → Prop} {c : Compile α} (h : Raises P c)
    (hPQ : ∀ problem, P problem → Q problem) : Raises Q c :=
  fun store problem hc => hPQ problem (h store problem hc)

theorem chained_raises (P : Problem → Prop) : Chained fun c c' => Raises P c ∧ Raises P c' where
  pure a a' := ⟨.pure a, .pure a'⟩
  bind hc hk := ⟨hc.1.bind fun a => (hk a a).1, hc.2.bind fun a => (hk a a).2⟩

theorem problem?_eq_some_iff {c : Compile α} {store : Store Fragment} {problem : Problem} :
    c.problem? store = some problem ↔ c store = .error problem := by
  unfold problem?
  cases c store with
  | error problem' => simp
  | ok p => simp

end Compile

/-- Compiling a site raises only problems of the shapes of sites that it visits. -/
theorem Site.raises_compile {P : Problem → Prop} {dialect : Dialect} (t : Site) (reply : Reply)
    (own : ∀ u, t.Reaches u → ∀ problem, u.shape.problem? = some problem → P problem) :
    Compile.Raises P (t.compile dialect reply) := by
  induction t using Site.induction generalizing reply with
  | step t ih =>
    have below {c : Site} (hc : c ∈ t.children) (reply : Reply) :
        Compile.Raises P (c.compile dialect reply) :=
      ih c hc reply fun u hu => own u (.step hc hu)
    have hbody (beside : Bool) :
        Compile.Raises P (t.body dialect beside) ∧ Compile.Raises P (t.body dialect beside) := by
      refine body_chained (Compile.chained_raises P) beside beside (fun problem hproblem => ?_)
        (fun c hc => ⟨below hc .reference, below hc .reference⟩)
        fun c hc _ => ⟨below hc .fragment, below hc .fragment⟩
      have hown := own t (.refl t) problem hproblem
      exact ⟨.fail hown, .fail hown⟩
    intro store problem h
    rw [← Compile.problem?_eq_some_iff, problem?_compile, Compile.problem?_eq_some_iff] at h
    exact (hbody _).1 store problem h

/-! ## Schemas -/

namespace Discriminator

/-- A discriminator that cannot be made is unsupported. -/
theorem unsupported_of_optionValues {name : String} {option : Schema} {problem : Problem}
    (h : optionValues name option = .error problem) : ∃ cause, problem = .unsupported cause := by
  unfold optionValues at h
  split at h
  · split at h
    · cases h
    · cases h
      exact ⟨_, rfl⟩
  · split at h
    · cases h
    · cases h
    · cases h
      exact ⟨_, rfl⟩
  · cases h
    exact ⟨_, rfl⟩

theorem unsupported_of_mapping {name : String} {mapped : Fragment}
    {labelled : List (String × Schema)} {problem : Problem}
    (h : mapping name mapped labelled = .error problem) : ∃ cause, problem = .unsupported cause := by
  induction labelled generalizing mapped with
  | nil => cases h
  | cons first rest ih =>
    obtain ⟨refId, option⟩ := first
    rw [mapping] at h
    split at h
    · rename_i problem' hvalues
      cases h
      exact unsupported_of_optionValues hvalues
    · exact ih h

theorem unsupported_of_object? {name : String} {options : List Schema} {problem : Problem}
    (h : object? name options = .error problem) : ∃ cause, problem = .unsupported cause := by
  unfold object? at h
  split at h
  · cases h
  · rename_i labelled _
    cases hmapping : mapping name [] labelled with
    | error problem' =>
      rw [hmapping] at h
      cases h
      exact unsupported_of_mapping hmapping
    | ok entries =>
      rw [hmapping] at h
      cases h

end Discriminator

namespace Schema

/-- The problem of a shape says nothing of parameters. -/
theorem placeless_shape (s : Schema) (piped : Bool) {problem : Problem}
    (h : (s.shape piped).problem? = some problem) : problem.Placeless := by
  induction s using induction generalizing piped with
  | step s ih =>
    have under {t : Schema} (ht : t ∈ s.kind.schemas) (piped : Bool)
        (h : (t.shape piped).problem? = some problem) : problem.Placeless :=
      ih t (List.mem_append_left _ ht) piped h
    obtain ⟨kind, description, label⟩ := s
    cases kind with
    | literal value =>
      rw [shape] at h
      unfold literalShape at h
      split at h <;> cases h
      exact Problem.placeless_unsupported _
    | nativeEnum members =>
      rw [shape] at h
      unfold nativeEnumShape at h
      dsimp only at h
      split at h
      · cases h
      · split at h <;> cases h
        exact Problem.placeless_unsupported _
    | object fields treatment catchall =>
      unfold shape at h
      dsimp only at h
      split at h <;> cases h
    | discriminatedUnion name options =>
      rw [shape] at h
      unfold Shape.problem? at h
      split at h
      · rename_i heq
        cases h
        obtain ⟨-, hobject⟩ := Shape.oneOf.inj heq
        obtain ⟨cause, rfl⟩ := Discriminator.unsupported_of_object? hobject
        exact Problem.placeless_unsupported cause
      · rename_i heq
        cases heq
      · cases h
    | effects inner =>
      rw [shape] at h
      split at h
      · cases h
      · exact under List.mem_cons_self false h
    | optional inner | nullable inner | default inner _ | branded inner _ | readonly inner =>
      rw [shape] at h
      exact under List.mem_cons_self false h
    | pipeline input output =>
      rw [shape] at h
      exact under List.mem_cons_self true h
    | never | void | undefined | map _ _ | set _ | promise _ =>
      unfold shape at h
      cases h
      exact Problem.placeless_unknownKind _ _
    | null | string _ | number _ | bigint _ | boolean | enumeration _ | unknown | any | date
    | array _ _ _ _ | tuple _ | union _ | intersection _ _ | record _ _ =>
      unfold shape at h
      cases h

/-- No schema raises a missing parameter key. -/
theorem placeless_site (dialect : Dialect) (reply : Reply) (s : Schema) :
    Compile.Raises Problem.Placeless (s.site.compile dialect reply) := by
  refine s.site.raises_compile reply fun u hu problem h => ?_
  obtain ⟨t, -, rfl⟩ := settled_of_reaches hu
  exact t.placeless_shape false h

end Schema

/-! ## Bodies and responses -/

section Operations

variable {dialect : Dialect}

theorem Schema.placeless_sites (s : Schema) (_ : True) :
    Compile.Raises Problem.Placeless (s.site.compile dialect .reference)
      ∧ Compile.Raises Problem.Placeless (s.site.compile dialect .reference) :=
  ⟨s.placeless_site dialect .reference, s.placeless_site dialect .reference⟩

theorem Parameter.placeless_compileBare (s : Schema) :
    Compile.Raises Problem.Placeless (compileBare dialect s) := by
  have hbare : Compile.Raises Problem.Placeless (compileBare dialect s)
      ∧ Compile.Raises Problem.Placeless (compileBare dialect s) :=
    compileBare_parallel (Compile.chained_raises _) Schema.placeless_sites trivial
  exact hbare.1

/-- No body of a request raises a missing parameter key. -/
theorem Route.placeless_compileBody (route : Route) :
    Compile.Raises Problem.Placeless (route.compileBody dialect) := by
  have hbody : Compile.Raises Problem.Placeless (route.compileBody dialect)
      ∧ Compile.Raises Problem.Placeless (route.compileBody dialect) :=
    route.compileBody_parallel (Compile.chained_raises _) Schema.placeless_sites fun _ _ => trivial
  exact hbody.1

/-- No response raises a missing parameter key, neither for its headers nor for its content. -/
theorem Response.placeless_compileAll (responses : List (String × Response)) :
    Compile.Raises Problem.Placeless (compileAll dialect responses) := by
  have refused (cause : Unsupported) :
      Compile.Raises Problem.Placeless (Compile.fail (.unsupported cause) : Compile Fragment) :=
    .fail (Problem.placeless_unsupported cause)
  have hresponses : Compile.Raises Problem.Placeless (compileAll dialect responses)
      ∧ Compile.Raises Problem.Placeless (compileAll dialect responses) :=
    compileAll_parallel (Compile.chained_raises _) Schema.placeless_sites Schema.hereditary_true
      (fun cause => ⟨refused cause, refused cause⟩) fun _ _ _ _ => trivial
  exact hresponses.1

end Operations

/-! ## Generations that fail -/

namespace Generation

variable {dialect : Dialect} {generation : Generation}

/-- A step that only takes over what was compiled fails with the problem of the compilation. -/
theorem of_run_eq_error {α : Type} {act : Compile α} {f : α × Generation → Generation}
    {problem : Problem} (h : (generation.run act >>= fun p => .ok (f p)) = .error problem) :
    act generation.schemas = .error problem := by
  unfold run at h
  cases hact : act generation.schemas with
  | error problem' =>
    rw [hact] at h
    cases h
    rfl
  | ok p =>
    rw [hact] at h
    cases h

/-- A run ends with the problem of a definition that cannot be compiled, after all before it have
been. -/
theorem steps_eq_error {definitions : List Definition} {problem : Problem}
    (h : generation.steps dialect definitions = .error problem) :
    ∃ before d after mid, definitions = before ++ d :: after
      ∧ generation.steps dialect before = .ok mid ∧ mid.step dialect d = .error problem := by
  induction definitions generalizing generation with
  | nil => cases h
  | cons d rest ih =>
    rw [steps] at h
    cases hstep : generation.step dialect d with
    | error problem' =>
      rw [hstep] at h
      cases h
      exact ⟨[], d, rest, generation, rfl, rfl, hstep⟩
    | ok next =>
      rw [hstep] at h
      obtain ⟨before, d', after, mid, rfl, hbefore, hd'⟩ := ih h
      refine ⟨d :: before, d', after, mid, rfl, ?_, hd'⟩
      rw [steps, hstep]
      exact hbefore

end Generation

/-- A generation from definitions that ends with a problem: of the data, of the components alone, or
of a whole document for the version. -/
inductive Fails (version : Version) (definitions : List Definition) (problem : Problem) : Prop
  | data : generateData version definitions = .error problem → Fails version definitions problem
  | components : generateComponents version definitions = .error problem →
      Fails version definitions problem
  | document (config : DocumentConfig) : Version.parse config.openapi = .ok version →
      generateDocument config definitions = .error problem → Fails version definitions problem

theorem Fails.ofDefinitions {version : Version} {definitions : List Definition} {problem : Problem}
    (h : Fails version definitions problem) :
    Generation.ofDefinitions version.dialect definitions = .error problem := by
  cases hof : Generation.ofDefinitions version.dialect definitions with
  | error problem' =>
    cases h with
    | data h =>
      rw [generateData, hof] at h
      cases h
      rfl
    | components h =>
      rw [generateComponents, hof] at h
      cases h
      rfl
    | document config hversion h =>
      rw [generateDocument, hversion] at h
      change (Generation.ofDefinitions version.dialect definitions >>= _) = Except.error problem at h
      rw [hof] at h
      cases h
      rfl
  | ok generation =>
    cases h with
    | data h =>
      rw [generateData, hof] at h
      cases h
    | components h =>
      rw [generateComponents, hof] at h
      cases h
    | document config hversion h =>
      rw [generateDocument, hversion] at h
      change (Generation.ofDefinitions version.dialect definitions >>= _) = Except.error problem at h
      rw [hof] at h
      cases h

end OpenApi
