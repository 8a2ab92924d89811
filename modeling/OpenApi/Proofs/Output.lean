/-
# OpenApi.Proofs.Output -- components in what is generated

What is generated is an object whose `components` hold groups, and each group holds components
by name. A stored schema or a registered parameter is found there under its identifier, whatever
finished components were submitted beside it.
-/
import OpenApi.Document
import OpenApi.Proofs.Computation

namespace OpenApi

/-- The component of a group with the given name. -/
def Json.component? (output : Json) (group name : String) : Option Json :=
  ((output.member? "components").bind fun components => components.member? group).bind
    fun components => components.member? name

namespace Generation

theorem get?_overGroup_self (groups : Entries Fragment) (name : String)
    (compiled : Store Fragment) :
    Entries.get? (overGroup groups name compiled) name
      = some (Entries.extend ((Entries.get? groups name).getD [])
          (Entries.mapValues Json.object compiled.entries)) := by
  unfold overGroup
  exact Entries.get?_insert_self _ _ _

theorem get?_overGroup_of_ne (groups : Entries Fragment) {name other : String}
    (compiled : Store Fragment) (h : other ≠ name) :
    Entries.get? (overGroup groups name compiled) other = Entries.get? groups other := by
  unfold overGroup
  exact Entries.get?_insert_of_ne _ _ h

theorem member?_writeOver_components (generation : Generation) (fields : Fragment) :
    (Json.object (generation.writeOver fields)).member? "components"
      = some (.object generation.componentGroups) := by
  have hpaths : "components" ≠ "paths" := by decide
  have hwebhooks : "components" ≠ "webhooks" := by decide
  show Entries.get? (generation.writeOver fields) "components" = _
  unfold writeOver
  dsimp only
  split
  · rw [Entries.get?_insert_of_ne _ _ hpaths, Entries.get?_insert_self]
  · rw [Entries.get?_insert_of_ne _ _ hwebhooks, Entries.get?_insert_of_ne _ _ hpaths,
      Entries.get?_insert_self]

theorem member?_writeOver_paths (generation : Generation) (fields : Fragment) :
    (Json.object (generation.writeOver fields)).member? "paths"
      = some (.object generation.paths.toFragment) := by
  show Entries.get? (generation.writeOver fields) "paths" = _
  unfold writeOver
  dsimp only
  split <;> simp [Entries.get?_insert]

/-- Where there are no webhooks, none are written. -/
theorem member?_writeOver_webhooks (generation : Generation) :
    (Json.object (generation.writeOver [])).member? "webhooks"
      = if generation.webhooks.isEmpty then none
        else some (.object generation.webhooks.toFragment) := by
  show Entries.get? (generation.writeOver []) "webhooks" = _
  unfold writeOver
  dsimp only
  split <;> simp [Entries.get?_insert, Entries.get?]

/-- What is written over fields is the components, the paths and, if there are any, the webhooks. -/
theorem mem_writeOver {generation : Generation} {fields : Fragment} {e : String × Json}
    (h : e ∈ generation.writeOver fields) :
    e ∈ fields ∨ e = ("components", .object generation.componentGroups)
      ∨ e = ("paths", .object generation.paths.toFragment)
      ∨ e = ("webhooks", .object generation.webhooks.toFragment)
        ∧ ¬ generation.webhooks.isEmpty = true := by
  have front (h : e ∈ Entries.insert (Entries.insert fields "components"
      (.object generation.componentGroups)) "paths" (.object generation.paths.toFragment)) :
      e ∈ fields ∨ e = ("components", .object generation.componentGroups)
        ∨ e = ("paths", .object generation.paths.toFragment) := by
    rcases Entries.mem_insert h with rfl | h
    · exact Or.inr (Or.inr rfl)
    · exact (Entries.mem_insert h).symm.imp_right Or.inl
  unfold writeOver at h
  dsimp only at h
  split at h
  · exact (front h).imp_right (Or.imp_right Or.inl)
  · rename_i hwebhooks
    rcases Entries.mem_insert h with rfl | h
    · exact Or.inr (Or.inr (Or.inr ⟨rfl, hwebhooks⟩))
    · exact (front h).imp_right (Or.imp_right Or.inl)

/-- What is generated is written under its own keys: every other field of the document stays. -/
theorem filter_writeOver (generation : Generation) (fields : Fragment) {p : String → Bool}
    (components : p "components" = false) (paths : p "paths" = false)
    (webhooks : p "webhooks" = false ∨ generation.webhooks = []) :
    (generation.writeOver fields).filter (fun e => p e.1) = fields.filter fun e => p e.1 := by
  unfold writeOver
  dsimp only
  rcases webhooks with webhooks | hnone
  · split
    · rw [Entries.filter_insert_of_not _ paths, Entries.filter_insert_of_not _ components]
    · rw [Entries.filter_insert_of_not _ webhooks, Entries.filter_insert_of_not _ paths,
        Entries.filter_insert_of_not _ components]
  · rw [hnone, if_pos List.isEmpty_nil, Entries.filter_insert_of_not _ paths,
      Entries.filter_insert_of_not _ components]

theorem component?_writeOver (generation : Generation) (group name : String) :
    (Json.object (generation.writeOver [])).component? group name
      = (Entries.get? (overGroup (overGroup (RawComponent.grouped generation.components) "schemas"
          generation.schemas) "parameters" generation.parameters) group).bind
        fun members => Entries.get? members name := by
  unfold Json.component?
  rw [member?_writeOver_components, Option.bind_some]
  unfold componentGroups
  show (Entries.get? (Entries.mapValues Json.object _) group).bind _ = _
  rw [Entries.get?_mapValues, Option.bind_map]
  rfl

/-- What is found among the compiled schemas was written over the finished ones. -/
theorem component?_schemas (generation : Generation) (name : String) :
    (Json.object (generation.writeOver [])).component? "schemas" name
      = Entries.get? (Entries.extend
          ((Entries.get? (RawComponent.grouped generation.components) "schemas").getD [])
          (Entries.mapValues Json.object generation.schemas.entries)) name := by
  have hne : "schemas" ≠ "parameters" := by decide
  rw [component?_writeOver, get?_overGroup_of_ne _ _ hne, get?_overGroup_self, Option.bind_some]

theorem component?_parameters (generation : Generation) (name : String) :
    (Json.object (generation.writeOver [])).component? "parameters" name
      = Entries.get? (Entries.extend
          ((Entries.get? (RawComponent.grouped generation.components) "parameters").getD [])
          (Entries.mapValues Json.object generation.parameters.entries)) name := by
  have hne : "parameters" ≠ "schemas" := by decide
  rw [component?_writeOver, get?_overGroup_self, Option.bind_some, get?_overGroup_of_ne _ _ hne]

theorem isSome_get?_extend_mapValues {group : Fragment} {compiled : Store Fragment} {name : String}
    (h : compiled.contains name = true) :
    (Entries.get? (Entries.extend group (Entries.mapValues Json.object compiled.entries)) name).isSome
      = true := by
  refine Entries.contains_extend.mpr (Or.inl ?_)
  rw [Entries.contains, Entries.get?_mapValues, Option.isSome_map]
  exact h

/-- What was compiled stands under its name in a group that it is written over, and whatever else was in
the group stays. -/
theorem get?_extend_compiled {compiled : Store Fragment} (unique : compiled.Unique)
    (group : Fragment) (name : String) :
    Entries.get? (Entries.extend group (Entries.mapValues Json.object compiled.entries)) name
      = ((compiled.get? name).map Json.object).or (Entries.get? group name) := by
  have hkeys : (Entries.keys (Entries.mapValues Json.object compiled.entries)).Nodup := by
    rw [Entries.keys_mapValues]
    exact unique
  rw [Entries.get?_extend _ hkeys, Entries.get?_mapValues]
  rfl

/-- A named schema is found in the output as it is stored, also where a finished component was
submitted under its name. -/
theorem component?_of_get? {generation : Generation} (unique : generation.schemas.Unique)
    {name : String} {fragment : Fragment} (h : generation.schemas.get? name = some fragment) :
    (Json.object (generation.writeOver [])).component? "schemas" name
      = some (.object fragment) := by
  rw [component?_schemas, get?_extend_compiled unique, h]
  rfl

theorem isSome_component?_schemas {generation : Generation} {name : String}
    (h : generation.schemas.contains name = true) :
    ((Json.object (generation.writeOver [])).component? "schemas" name).isSome = true := by
  rw [component?_schemas]
  exact isSome_get?_extend_mapValues h

theorem isSome_component?_parameters {generation : Generation} {name : String}
    (h : generation.parameters.contains name = true) :
    ((Json.object (generation.writeOver [])).component? "parameters" name).isSome = true := by
  rw [component?_parameters]
  exact isSome_get?_extend_mapValues h

end Generation

/-! ## Runs -/

namespace Generation

theorem run_eq_ok {α : Type} {generation after : Generation} {act : Compile α} {a : α}
    (h : generation.run act = .ok (a, after)) :
    ∃ schemas, act generation.schemas = .ok (a, schemas)
      ∧ after = { generation with schemas := schemas } := by
  unfold run at h
  cases hact : act generation.schemas with
  | error problem =>
    rw [hact] at h
    cases h
  | ok p =>
    rw [hact] at h
    cases h
    exact ⟨p.2, rfl, rfl⟩

/-- What one step does to a generation, by the kind of the definition. -/
inductive StepsTo (dialect : Dialect) (generation : Generation) : Definition → Generation → Prop
  | plain {s : Schema} {answer : Fragment} {schemas : Store Fragment} :
      s.site.compile dialect .fragment generation.schemas = .ok (answer, schemas) →
      StepsTo dialect generation (.plain s) { generation with schemas := schemas }
  | schema {s : Schema} {answer : Fragment} {schemas : Store Fragment} :
      s.site.compile dialect .fragment generation.schemas = .ok (answer, schemas) →
      StepsTo dialect generation (.schema s) { generation with schemas := schemas }
  | parameter {s : Schema} {schemas parameters : Store Fragment} :
      Parameter.register dialect generation.parameters s generation.schemas
        = .ok (parameters, schemas) →
      StepsTo dialect generation (.parameter s)
        { generation with schemas := schemas, parameters := parameters }
  | component (c : RawComponent) :
      StepsTo dialect generation (.component c)
        { generation with components := generation.components ++ [c] }
  | route {r : Route} {operation : Fragment} {schemas : Store Fragment} :
      r.compile dialect generation.parameters generation.schemas = .ok (operation, schemas) →
      StepsTo dialect generation (.route r)
        { generation with
          schemas := schemas, paths := generation.paths.put r.path r.method operation }
  | webhook {r : Route} {operation : Fragment} {schemas : Store Fragment} :
      dialect.hasWebhooks = true →
      r.compile dialect generation.parameters generation.schemas = .ok (operation, schemas) →
      StepsTo dialect generation (.webhook r)
        { generation with
          schemas := schemas, webhooks := generation.webhooks.put r.path r.method operation }

theorem run_bind_eq_ok {α : Type} {generation after : Generation} {act : Compile α}
    {k : α × Generation → Except Problem Generation} (h : (generation.run act >>= k) = .ok after) :
    ∃ a schemas, act generation.schemas = .ok (a, schemas)
      ∧ k (a, { generation with schemas := schemas }) = .ok after := by
  cases hrun : generation.run act with
  | error problem =>
    rw [hrun] at h
    cases h
  | ok p =>
    rw [hrun] at h
    obtain ⟨a, next⟩ := p
    obtain ⟨schemas, hact, rfl⟩ := run_eq_ok hrun
    exact ⟨a, schemas, hact, h⟩

theorem run_map_eq_ok {α : Type} {generation after : Generation} {act : Compile α}
    (h : (generation.run act).map (·.2) = .ok after) :
    ∃ a schemas, act generation.schemas = .ok (a, schemas)
      ∧ after = { generation with schemas := schemas } := by
  cases hrun : generation.run act with
  | error problem =>
    rw [hrun] at h
    cases h
  | ok p =>
    rw [hrun] at h
    cases h
    obtain ⟨a, next⟩ := p
    obtain ⟨schemas, hact, hnext⟩ := run_eq_ok hrun
    exact ⟨a, schemas, hact, hnext⟩

theorem stepsTo_of_step {dialect : Dialect} {generation after : Generation} {d : Definition}
    (h : generation.step dialect d = .ok after) : StepsTo dialect generation d after := by
  cases d with
  | plain s =>
    obtain ⟨answer, schemas, hact, rfl⟩ := run_map_eq_ok h
    exact .plain hact
  | schema s =>
    obtain ⟨answer, schemas, hact, rfl⟩ := run_map_eq_ok h
    exact .schema hact
  | parameter s =>
    obtain ⟨parameters, schemas, hact, hafter⟩ := run_bind_eq_ok h
    cases hafter
    exact .parameter hact
  | component c =>
    cases h
    exact .component c
  | route r =>
    obtain ⟨operation, schemas, hact, hafter⟩ := run_bind_eq_ok h
    cases hafter
    exact .route hact
  | webhook r =>
    cases dialect with
    | flags => cases h
    | types =>
      obtain ⟨operation, schemas, hact, hafter⟩ := run_bind_eq_ok h
      cases hafter
      exact .webhook rfl hact

theorem steps_cons_eq_ok {dialect : Dialect} {generation after : Generation} {d : Definition}
    {rest : List Definition} (h : generation.steps dialect (d :: rest) = .ok after) :
    ∃ next, StepsTo dialect generation d next ∧ next.steps dialect rest = .ok after := by
  rw [steps] at h
  split at h
  · rename_i next hnext
    exact ⟨next, stepsTo_of_step hnext, h⟩
  · cases h

theorem step_of_stepsTo {dialect : Dialect} {generation after : Generation} {d : Definition}
    (h : StepsTo dialect generation d after) : generation.step dialect d = .ok after := by
  cases h with
  | plain hact => simp [step, run, hact, Except.map]
  | schema hact => simp [step, run, hact, Except.map]
  | parameter hact => simp [step, run, hact, Except.map, bind, Except.bind, pure, Except.pure]
  | component c => rfl
  | route hact => simp [step, operation, run, hact, Except.map, bind, Except.bind, pure, Except.pure]
  | webhook hhas hact =>
    simp [step, hhas, operation, run, hact, Except.map, bind, Except.bind, pure, Except.pure]

theorem steps_append_eq_ok {dialect : Dialect} {generation after : Generation}
    {first second : List Definition} :
    generation.steps dialect (first ++ second) = .ok after
      ↔ ∃ mid, generation.steps dialect first = .ok mid ∧ mid.steps dialect second = .ok after := by
  induction first generalizing generation with
  | nil =>
    constructor
    · exact fun h => ⟨generation, rfl, h⟩
    · rintro ⟨mid, hmid, h⟩
      cases hmid
      exact h
  | cons d rest ih =>
    rw [List.cons_append, steps, steps]
    cases generation.step dialect d with
    | error problem =>
      constructor
      · intro h
        cases h
      · rintro ⟨mid, hmid, _⟩
        cases hmid
    | ok next => exact ih

end Generation

/-- What was generated is what the definitions by rank lead to from nothing. -/
theorem generateData_eq_ok {version : Version} {definitions : List Definition} {output : Json}
    (h : generateData version definitions = .ok output) :
    ∃ generation, Generation.ofDefinitions version.dialect definitions = .ok generation
      ∧ output = .object (generation.writeOver []) := by
  unfold generateData at h
  cases hof : Generation.ofDefinitions version.dialect definitions with
  | error problem =>
    rw [hof] at h
    cases h
  | ok generation =>
    rw [hof] at h
    cases h
    exact ⟨generation, rfl, rfl⟩

/-- A document is what was generated for the version of its fields, over its fields. -/
theorem generateDocument_eq_ok {config : DocumentConfig} {definitions : List Definition}
    {document : Json} (h : generateDocument config definitions = .ok document) :
    ∃ version generation, Version.parse config.openapi = .ok version
      ∧ Generation.ofDefinitions version.dialect definitions = .ok generation
      ∧ document = .object (generation.writeOver config.toFragment) := by
  unfold generateDocument at h
  cases hversion : Version.parse config.openapi with
  | error problem =>
    rw [hversion] at h
    cases h
  | ok version =>
    rw [hversion] at h
    change (Generation.ofDefinitions version.dialect definitions >>= _) = Except.ok document at h
    cases hof : Generation.ofDefinitions version.dialect definitions with
    | error problem =>
      rw [hof] at h
      cases h
    | ok generation =>
      rw [hof] at h
      cases h
      exact ⟨version, generation, rfl, hof, rfl⟩

theorem Definition.mem_byRank {definitions : List Definition} {d : Definition} :
    d ∈ Definition.byRank definitions ↔ d ∈ definitions := by
  unfold Definition.byRank
  constructor
  · intro h
    obtain ⟨rank, _, hd⟩ := List.mem_flatMap.mp h
    exact (List.mem_filter.mp hd).1
  · intro h
    refine List.mem_flatMap.mpr ⟨d.rank, ?_, List.mem_filter.mpr ⟨h, beq_self_eq_true d.rank⟩⟩
    refine List.mem_range.mpr ?_
    cases d <;> simp [rank]

end OpenApi
