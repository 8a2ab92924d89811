/-
# OpenApi.Proofs.Independence -- what an outcome does not depend on

The order in which definitions are submitted decides what is stored first, and with it what many
fragments look like. It decides neither whether anything is generated nor the names in what is
generated (`generates_in_any_order`), and without webhooks the version does not either
(`generates_in_any_version`).

For the order, a run is told from its end. Every definition that it passed is `Accepted` beside
the parameters that are registered in the end, and being accepted says nothing about an order. In
any other order the definitions are still accepted, as the parameters registered on the way are
always some of these (`Parameter.Within`), and all of them when operations come.
-/
import OpenApi.Proofs.GeneratedNames

namespace OpenApi

/-! ## Definitions that are accepted -/

namespace Parameter

variable {first second : Store Fragment}

/-- Whatever is registered in one store is registered in another, by the same name and location. -/
def Within (registered registered' : Store Fragment) : Prop :=
  ∀ refId signature, signature? registered refId = some signature →
    signature? registered' refId = some signature

theorem Within.alike (h : Within first second) (h' : Within second first) : Alike first second :=
  fun refId => Option.ext fun signature => ⟨h refId signature, h' refId signature⟩

end Parameter

namespace Definition

variable {dialect : Dialect} {registered registered' : Store Fragment} {d : Definition}

/-- A definition that compiles, whatever schemas are stored, and that is not in conflict with the
given parameters. -/
def Accepted (dialect : Dialect) (registered : Store Fragment) : Definition → Prop
  | plain s | schema s => ∃ names, (s.site.compile dialect .fragment).Yields (.ok names)
  | parameter s =>
    (∃ names, (s.site.compile dialect .reference).Yields (.ok names))
      ∧ ∃ signature, Parameter.declared? s = some signature
        ∧ ∀ refId, s.refId? = some refId → Parameter.signature? registered refId = some signature
  | component _ => True
  | route r => ∃ names, (r.compile dialect registered).Yields (.ok names)
  | webhook r =>
    dialect.hasWebhooks = true ∧ ∃ names, (r.compile dialect registered).Yields (.ok names)

/-- More parameters do no harm to what is accepted, unless it is an operation: an operation may
use any parameter that is there. -/
theorem Accepted.mono (h : d.Accepted dialect registered)
    (within : Parameter.Within registered registered')
    (back : d.isOperation = true → Parameter.Within registered' registered) :
    d.Accepted dialect registered' := by
  have operation {r : Route} (alike : Parameter.Alike registered registered')
      (hyields : ∃ names, (r.compile dialect registered).Yields (.ok names)) :
      ∃ names, (r.compile dialect registered').Yields (.ok names) := by
    obtain ⟨names, hnames⟩ := hyields
    exact ⟨names, (r.sameOutcome alike).yields hnames⟩
  cases d with
  | plain s | schema s | component c => exact h
  | parameter s =>
    obtain ⟨hyields, signature, hdeclared, hregistered⟩ := h
    exact ⟨hyields, signature, hdeclared, fun refId hrefId =>
      within refId signature (hregistered refId hrefId)⟩
  | route r => exact operation (within.alike (back rfl)) h
  | webhook r => exact ⟨h.1, operation (within.alike (back rfl)) h.2⟩

/-- What is accepted registers nothing but what is registered. -/
theorem Accepted.signature? (h : d.Accepted dialect registered) {refId : String}
    {signature : Option String × Option String} (hd : d.Registers refId signature) :
    Parameter.signature? registered refId = some signature := by
  obtain ⟨s, rfl, hrefId, hdeclared⟩ := hd
  obtain ⟨_, declared, hsome, hregistered⟩ := h
  rw [hdeclared] at hsome
  cases hsome
  exact hregistered refId hrefId

theorem Registers.isOperation {refId : String} {signature : Option String × Option String}
    (h : d.Registers refId signature) : d.isOperation = false := by
  obtain ⟨s, rfl, _⟩ := h
  rfl

end Definition

/-! ## From a run to what it accepts, and back -/

namespace Generation

variable {dialect : Dialect} {generation after : Generation} {d : Definition}
  {definitions : List Definition} {registered : Store Fragment}

/-- A definition that is stepped through is accepted beside what is registered then. -/
theorem accepted_of_stepsTo (h : StepsTo dialect generation d after) :
    d.Accepted dialect after.parameters := by
  cases h with
  | plain hact | schema hact => exact ⟨_, Site.yields_names hact .fragment⟩
  | parameter hact =>
    obtain ⟨signature, hdeclared, ⟨answer, hcompile⟩, _, hupdated⟩ := Parameter.of_register hact
    refine ⟨⟨_, Site.yields_names hcompile .reference⟩, signature, hdeclared, fun refId hrefId => ?_⟩
    show Parameter.signature? _ refId = _
    rw [hupdated, if_pos hrefId]
  | component c => trivial
  | route hact => exact Route.yields_ok hact
  | webhook hhas hact => exact ⟨hhas, Route.yields_ok hact⟩

/-- Every definition is accepted beside what is registered in the end. -/
theorem accepted_of_ofDefinitions (h : ofDefinitions dialect definitions = .ok after)
    (hd : d ∈ definitions) : d.Accepted dialect after.parameters := by
  cases hop : d.isOperation with
  | false =>
    -- Only more is registered after it.
    obtain ⟨first, second, hsplit⟩ := List.append_of_mem (Definition.mem_byRank.mpr hd)
    rw [ofDefinitions, hsplit] at h
    obtain ⟨mid, _, hrun⟩ := steps_append_eq_ok.mp h
    obtain ⟨next, hstep, hrest⟩ := steps_cons_eq_ok hrun
    refine (accepted_of_stepsTo hstep).mono (fun refId signature hsignature => ?_) fun hoperation => ?_
    · exact (signature?_steps hrest refId signature).mpr (Or.inl hsignature)
    · simp [hop] at hoperation
  | true =>
    -- Only operations come after it, and they register nothing.
    obtain ⟨first, second, hsplit⟩ := List.append_of_mem (Definition.mem_late.mpr ⟨hd, hop⟩)
    rw [ofDefinitions, Definition.byRank_eq_early_late, hsplit] at h
    obtain ⟨_, _, hrun⟩ := steps_append_eq_ok.mp h
    obtain ⟨mid, _, hrun⟩ := steps_append_eq_ok.mp hrun
    obtain ⟨next, hstep, hrest⟩ := steps_cons_eq_ok hrun
    have hops : ∀ d' ∈ second, d'.isOperation = true := by
      intro d' hd'
      have hmem : d' ∈ first ++ d :: second := by simp [hd']
      exact (Definition.mem_late.mp (hsplit ▸ hmem)).2
    rw [parameters_steps hops hrest]
    exact accepted_of_stepsTo hstep

/-- A definition is stepped through if it is accepted beside parameters that comprise those that
are registered; an operation needs all of them. -/
theorem exists_stepsTo (accepted : d.Accepted dialect registered)
    (within : Parameter.Within generation.parameters registered)
    (back : d.isOperation = true → Parameter.Within registered generation.parameters) :
    ∃ after, StepsTo dialect generation d after
      ∧ Parameter.Within after.parameters registered := by
  obtain ⟨after, hstep⟩ : ∃ after, StepsTo dialect generation d after := by
    cases d with
    | plain s =>
      obtain ⟨names, hyields⟩ := accepted
      obtain ⟨answer, schemas, hact, _⟩ := hyields generation.schemas
      exact ⟨_, .plain hact⟩
    | schema s =>
      obtain ⟨names, hyields⟩ := accepted
      obtain ⟨answer, schemas, hact, _⟩ := hyields generation.schemas
      exact ⟨_, .schema hact⟩
    | parameter s =>
      obtain ⟨⟨names, hyields⟩, signature, hdeclared, hregistered⟩ := accepted
      have hagree (refId old) (hrefId : s.refId? = some refId)
          (hold : Parameter.signature? generation.parameters refId = some old) :
          old = signature := by
        have hsame := hregistered refId hrefId
        rw [within refId old hold] at hsame
        exact Option.some.inj hsame
      obtain ⟨updated, schemas, hact⟩ :=
        Parameter.register_ok hdeclared hyields hagree generation.schemas
      exact ⟨_, .parameter hact⟩
    | component c => exact ⟨_, .component c⟩
    | route r =>
      obtain ⟨names, hyields⟩ := accepted.mono (back rfl) fun _ => within
      obtain ⟨answer, schemas, hact, _⟩ := hyields generation.schemas
      exact ⟨_, .route hact⟩
    | webhook r =>
      obtain ⟨hhas, names, hyields⟩ := accepted.mono (back rfl) fun _ => within
      obtain ⟨answer, schemas, hact, _⟩ := hyields generation.schemas
      exact ⟨_, .webhook hhas hact⟩
  refine ⟨after, hstep, fun refId signature hsignature => ?_⟩
  rcases (signature?_stepsTo hstep refId signature).mp hsignature with hbefore | hadded
  · exact within refId signature hbefore
  · exact accepted.signature? hadded

/-- A run passes definitions that are accepted beside parameters that comprise those that are
registered; operations need all of them. -/
theorem exists_steps (accepted : ∀ d ∈ definitions, d.Accepted dialect registered)
    (within : Parameter.Within generation.parameters registered)
    (back : ∀ d ∈ definitions, d.isOperation = true →
      Parameter.Within registered generation.parameters) :
    ∃ after, generation.steps dialect definitions = .ok after
      ∧ Parameter.Within after.parameters registered := by
  induction definitions generalizing generation with
  | nil => exact ⟨generation, rfl, within⟩
  | cons d rest ih =>
    obtain ⟨next, hstep, hnext⟩ := exists_stepsTo (accepted d List.mem_cons_self) within
      (back d List.mem_cons_self)
    have hback : ∀ d' ∈ rest, d'.isOperation = true →
        Parameter.Within registered next.parameters := by
      intro d' hd' hop refId signature hsignature
      have hbefore := back d' (List.mem_cons_of_mem _ hd') hop refId signature hsignature
      exact (signature?_stepsTo hstep refId signature).mpr (Or.inl hbefore)
    obtain ⟨after, hrest, hafter⟩ :=
      ih (fun d' hd' => accepted d' (List.mem_cons_of_mem _ hd')) hnext hback
    refine ⟨after, ?_, hafter⟩
    rw [steps, step_of_stepsTo hstep]
    exact hrest

/-- Definitions that are all accepted beside the parameters that they register are generated from,
whatever their order. -/
theorem exists_ofDefinitions (accepted : ∀ d ∈ definitions, d.Accepted dialect registered)
    (registers : ∀ refId signature, Parameter.signature? registered refId = some signature →
      ∃ d ∈ definitions, d.Registers refId signature) :
    ∃ after, ofDefinitions dialect definitions = .ok after := by
  have hempty : Parameter.Within ({} : Generation).parameters registered := by
    intro refId signature hsignature
    cases hsignature
  obtain ⟨mid, hearly, hmid⟩ := exists_steps
    (fun d hd => accepted d (Definition.mem_early.mp hd).1) hempty
    fun d hd hop => absurd hop (by simp [(Definition.mem_early.mp hd).2])
  -- All parameters are registered now.
  have hback : Parameter.Within registered mid.parameters := by
    intro refId signature hsignature
    obtain ⟨d, hd, hregisters⟩ := registers refId signature hsignature
    exact (signature?_steps hearly refId signature).mpr
      (Or.inr ⟨d, Definition.mem_early.mpr ⟨hd, hregisters.isOperation⟩, hregisters⟩)
  obtain ⟨after, hlate, _⟩ := exists_steps
    (fun d hd => accepted d (Definition.mem_late.mp hd).1) hmid fun _ _ _ => hback
  refine ⟨after, ?_⟩
  rw [ofDefinitions, Definition.byRank_eq_early_late]
  exact steps_append_eq_ok.mpr ⟨mid, hearly, hlate⟩

/-- The order of definitions does not decide whether there is a generation, nor how often each of
them is submitted. -/
theorem ofDefinitions_of_same {definitions' : List Definition}
    (same : ∀ d, d ∈ definitions ↔ d ∈ definitions')
    (h : ofDefinitions dialect definitions = .ok after) :
    ∃ after', ofDefinitions dialect definitions' = .ok after' := by
  have accepted : ∀ d ∈ definitions', d.Accepted dialect after.parameters :=
    fun d hd => accepted_of_ofDefinitions h ((same d).mpr hd)
  refine exists_ofDefinitions accepted fun refId signature hsignature => ?_
  obtain ⟨d, hd, hregisters⟩ := ((madeOf_ofDefinitions h).parameters refId signature).mp hsignature
  exact ⟨d, (same d).mp hd, hregisters⟩

end Generation

/-! ## Orders and versions -/

section Outputs

variable {version version' : Version} {definitions definitions' : List Definition}

theorem generateData_of_ofDefinitions {generation : Generation}
    (h : Generation.ofDefinitions version.dialect definitions = .ok generation) :
    generateData version definitions = .ok (.object (generation.writeOver [])) := by
  rw [generateData, h]
  rfl

theorem exists_generateData_of_same (same : ∀ d, d ∈ definitions ↔ d ∈ definitions')
    (h : ∃ output, generateData version definitions = .ok output) :
    ∃ output', generateData version definitions' = .ok output' := by
  obtain ⟨output, hgenerate⟩ := h
  obtain ⟨generation, hof, _⟩ := generateData_eq_ok hgenerate
  obtain ⟨generation', hof'⟩ := Generation.ofDefinitions_of_same same hof
  exact ⟨_, generateData_of_ofDefinitions hof'⟩

/-- Two orders of the same definitions either both lead to an output or neither does, and the
outputs have the same names: of components in every group, and of operations by path and method. -/
theorem generates_in_any_order (order : definitions.Perm definitions') :
    ((∃ output, generateData version definitions = .ok output)
        ↔ ∃ output', generateData version definitions' = .ok output')
      ∧ ∀ output output', generateData version definitions = .ok output →
          generateData version definitions' = .ok output' → output.SameNames output' := by
  have same (d : Definition) : d ∈ definitions ↔ d ∈ definitions' := order.mem_iff
  refine ⟨⟨exists_generateData_of_same same,
    exists_generateData_of_same fun d => (same d).symm⟩, ?_⟩
  intro output output' hgenerate hgenerate'
  obtain ⟨generation, hof, rfl⟩ := generateData_eq_ok hgenerate
  obtain ⟨generation', hof', rfl⟩ := generateData_eq_ok hgenerate'
  exact (Generation.madeOf_ofDefinitions hof).sameNames (Generation.madeOf_ofDefinitions hof') same

/-- Definitions of every kind have the same names in the opposite order, though not all that is
said under them is the same: a string is stored with null where the object that accepts null in
its place is compiled first. -/
theorem generates_in_opposite_order :
    let text := Schema.ofKind (.string [])
    let tag := text.named "Tag"
    let pet := (Schema.object [("tag", tag.nullable)]).named "Pet"
    let page := (text.named "Page").parameter { name := some "page", location := some .query }
    let found : Response := { description := "a pet" }
    let find : Route := {
      method := .get
      path := "/pets"
      request := some { query := some (Schema.object [("page", page)]) }
      responses := [("200", found.withJson pet)] }
    let definitions : List Definition := [.webhook find, .route find,
      .component ⟨"securitySchemes", "key", .object [("type", .string "http")]⟩,
      .parameter page, .schema pet, .schema tag, .plain text]
    ∃ output output', generateData .v310 definitions = .ok output
      ∧ generateData .v310 definitions.reverse = .ok output'
      ∧ output.SameNames output' ∧ output.same output' = false := by
  intro text tag pet page found find definitions
  have hdiffer : ((generateData .v310 definitions).toOption.bind fun output =>
      (generateData .v310 definitions.reverse).toOption.map output.same) = some false := by
    decide +kernel +revert
  obtain ⟨_, hnames⟩ := @generates_in_any_order .v310 _ _ definitions.reverse_perm.symm
  generalize hgenerate : generateData .v310 definitions = result at hdiffer hnames
  generalize hgenerate' : generateData .v310 definitions.reverse = result' at hdiffer hnames
  cases result with
  | error problem => cases hdiffer
  | ok output =>
    cases result' with
    | error problem => cases hdiffer
    | ok output' => exact ⟨output, output', rfl, rfl, hnames _ _ rfl rfl, Option.some.inj hdiffer⟩

/-- Without webhooks, two versions either both end with the same problem, or both lead to an
output. The outputs have the same names then, and the same groups of components besides those of
schemas and of parameters. -/
theorem generates_in_any_version (webhookless : ∀ r, .webhook r ∉ definitions) :
    (∃ problem, generateData version definitions = .error problem
        ∧ generateData version' definitions = .error problem)
      ∨ ∃ output output', generateData version definitions = .ok output
          ∧ generateData version' definitions = .ok output' ∧ output.SameNames output'
          ∧ ∀ group, group ≠ "schemas" → group ≠ "parameters" →
              output.group? group = output'.group? group := by
  have hmatches : Generation.Matches (Generation.ofDefinitions version.dialect definitions)
      (Generation.ofDefinitions version'.dialect definitions) := by
    refine Generation.matches_steps (.refl _) _ (Or.inr ?_)
    rintro d hd r rfl
    exact webhookless r (Definition.mem_byRank.mp hd)
  generalize hof : Generation.ofDefinitions version.dialect definitions = result at hmatches
  generalize hof' : Generation.ofDefinitions version'.dialect definitions = result' at hmatches
  cases hmatches with
  | error problem =>
    refine Or.inl ⟨problem, ?_, ?_⟩
    · rw [generateData, hof]
      rfl
    · rw [generateData, hof']
      rfl
  | @ok generation generation' _ =>
    refine Or.inr ⟨_, _, generateData_of_ofDefinitions hof, generateData_of_ofDefinitions hof',
      ?_, fun group hschemas hparameters => ?_⟩
    · exact (Generation.madeOf_ofDefinitions hof).sameNames
        (Generation.madeOf_ofDefinitions hof') fun _ => Iff.rfl
    · have hcomponents : generation.components = generation'.components :=
        (Generation.components_steps hof).trans (Generation.components_steps hof').symm
      rw [Generation.group?_of_ne _ hschemas hparameters,
        Generation.group?_of_ne _ hschemas hparameters, hcomponents]

/-- A string that may be null is named in both dialects, though they write it differently. A
parameter without a location is refused in both. -/
theorem generates_in_both_dialects :
    let text := Schema.ofKind (.string [])
    let nameless := (text.named "Page").parameter { name := some "page" }
    (∃ output output', generateData .v303 [.schema (text.nullable.named "Tag")] = .ok output
        ∧ generateData .v310 [.schema (text.nullable.named "Tag")] = .ok output'
        ∧ output.SameNames output' ∧ output.same output' = false)
      ∧ ∃ problem, generateData .v303 [.parameter nameless] = .error problem
        ∧ generateData .v310 [.parameter nameless] = .error problem := by
  intro text nameless
  constructor
  · have hboth := @generates_in_any_version .v303 .v310 [.schema (text.nullable.named "Tag")]
      (by simp)
    rcases hboth with ⟨problem, hproblem, _⟩ | ⟨output, output', houtput, houtput', hnames, _⟩
    · cases hproblem
    · cases houtput
      cases houtput'
      exact ⟨_, _, rfl, rfl, hnames, rfl⟩
  · exact ⟨_, rfl, rfl⟩

end Outputs

end OpenApi
