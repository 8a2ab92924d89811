/-
# OpenApi.Proofs.GeneratedNames -- what is found in an output, whatever it says

What a generation has under a name is one thing, and that it has something there is another. The
latter can be read off the definitions: `Definition.Stores`, `Definition.Registers` and the like
say what a definition adds, and a run has what one of its definitions has added
(`Generation.observed_steps`). None of them looks at what was compiled before, but for operations,
which are compiled with the registered parameters at hand; and these are known by then, since
operations come last (`Definition.early`, `Definition.late`).

`Json.SameNames` compares two outputs in this way: component groups, the names in them, and the
operations by path and method.
-/
import Mathlib.Data.List.Induction
import OpenApi.Proofs.Visits

namespace OpenApi

/-! ## What a definition adds -/

namespace Definition

/-- A name that compiling a definition stores, given the registered parameters. -/
def Stores (registered : Store Fragment) : Definition → String → Prop
  | plain s | schema s | parameter s => s.site.Names
  | component _ => fun _ => False
  | route r | webhook r => fun name =>
    ∃ dialect names, (r.compile dialect registered).Yields (.ok names) ∧ name ∈ names

/-- A definition registers a parameter of a given location and name under an identifier. -/
def Registers (refId : String) (signature : Option String × Option String) (d : Definition) : Prop :=
  ∃ s, d = .parameter s ∧ s.refId? = some refId ∧ Parameter.declared? s = some signature

/-- A definition is the route of an operation. -/
def Routes (path key : String) (d : Definition) : Prop :=
  ∃ r, d = .route r ∧ path = r.path ∧ key = r.method.text

/-- A definition is the webhook of an operation. -/
def Hooks (path key : String) (d : Definition) : Prop :=
  ∃ r, d = .webhook r ∧ path = r.path ∧ key = r.method.text

/-- The finished component that a definition submits. -/
def finished? : Definition → Option RawComponent
  | component c => some c
  | plain _ | schema _ | parameter _ | route _ | webhook _ => none

/-- Operations are compiled after everything else. -/
def isOperation : Definition → Bool
  | route _ | webhook _ => true
  | plain _ | schema _ | parameter _ | component _ => false

/-- The definitions that are compiled before operations, by rank. -/
def early (definitions : List Definition) : List Definition :=
  (List.range 4).flatMap fun rank => definitions.filter fun d => d.rank == rank

/-- The operations, by rank. -/
def late (definitions : List Definition) : List Definition :=
  [4, 5].flatMap fun rank => definitions.filter fun d => d.rank == rank

theorem byRank_eq_early_late (definitions : List Definition) :
    byRank definitions = early definitions ++ late definitions := by
  have hranks : List.range 6 = List.range 4 ++ [4, 5] := by decide
  rw [byRank, hranks, List.flatMap_append]
  rfl

theorem mem_early {definitions : List Definition} {d : Definition} :
    d ∈ early definitions ↔ d ∈ definitions ∧ d.isOperation = false := by
  cases d <;> simp [early, rank, isOperation]

theorem mem_late {definitions : List Definition} {d : Definition} :
    d ∈ late definitions ↔ d ∈ definitions ∧ d.isOperation = true := by
  cases d <;> simp [late, rank, isOperation]

@[simp]
theorem finished?_eq_some {c : RawComponent} {d : Definition} :
    d.finished? = some c ↔ d = .component c := by
  cases d <;> simp [finished?]

/-- What is told of definitions of one rank only is told by the definitions of that rank. -/
theorem filterMap_filter_rank {α : Type} {f : Definition → Option α} {own : Nat}
    (hf : ∀ d, d.rank ≠ own → f d = none) (definitions : List Definition) (n : Nat) :
    (definitions.filter fun d => d.rank == n).filterMap f
      = if n = own then definitions.filterMap f else [] := by
  rw [List.filterMap_filter]
  by_cases hn : n = own
  · rw [if_pos hn]
    congr 1
    funext d
    by_cases hd : d.rank = n
    · simp [hd]
    · simp [hd, hf d (hn ▸ hd)]
  · rw [if_neg hn, List.filterMap_eq_nil_iff]
    intro d _
    by_cases hd : d.rank = n
    · simp [hd, hf d fun h => hn (hd.symm.trans h)]
    · simp [hd]

theorem exists_mem_early_or_late {definitions : List Definition} {p : Definition → Prop} :
    (∃ d ∈ early definitions, p d) ∨ (∃ d ∈ late definitions, p d) ↔ ∃ d ∈ definitions, p d := by
  have hmem (d : Definition) : d ∈ definitions ↔ d ∈ early definitions ∨ d ∈ late definitions := by
    rw [← mem_byRank, byRank_eq_early_late, List.mem_append]
  simp only [hmem, or_and_right, exists_or]

/-- Only operations look at the registered parameters. -/
theorem stores_congr {registered registered' : Store Fragment} {d : Definition}
    (hd : d.isOperation = false) {name : String} :
    d.Stores registered name ↔ d.Stores registered' name := by
  cases d with
  | plain s | schema s | parameter s | component c => rfl
  | route r | webhook r => simp [isOperation] at hd

/-- Operations look at the names and locations of parameters only. -/
theorem Stores.of_alike {registered registered' : Store Fragment}
    (alike : Parameter.Alike registered registered') {d : Definition} {name : String}
    (h : d.Stores registered name) : d.Stores registered' name := by
  cases d with
  | plain s | schema s | parameter s => exact h
  | component c => exact h
  | route r | webhook r =>
    obtain ⟨dialect, names, hyields, hname⟩ := h
    exact ⟨dialect, names, (r.sameOutcome alike).yields hyields, hname⟩

end Definition

/-! ## What a step adds -/

theorem PathItems.containsWithin_put (items : PathItems) (path other : String) (method : Method)
    (key : String) (operation : Fragment) :
    Entries.containsWithin (items.put path method operation) other key = true
      ↔ Entries.containsWithin items other key = true ∨ other = path ∧ key = method.text :=
  Entries.containsWithin_insert
    (fun inner => (Entries.contains_insert _ method.text inner _).trans or_comm) other key

namespace Generation

variable {dialect : Dialect} {generation after : Generation} {d : Definition}

/-- What a run over definitions has is what it had before, and what one of them has added; and
what each step keeps the run keeps. -/
theorem observed_steps (keeps observed : Generation → Prop) (adds : Definition → Prop)
    {definitions : List Definition}
    (step : ∀ d ∈ definitions, ∀ generation after, keeps generation →
      StepsTo dialect generation d after →
        keeps after ∧ (observed after ↔ observed generation ∨ adds d))
    (h : keeps generation) (hrun : generation.steps dialect definitions = .ok after) :
    keeps after ∧ (observed after ↔ observed generation ∨ ∃ d ∈ definitions, adds d) := by
  induction definitions generalizing generation with
  | nil =>
    cases hrun
    exact ⟨h, by simp⟩
  | cons d rest ih =>
    obtain ⟨next, hstep, hrest⟩ := steps_cons_eq_ok hrun
    obtain ⟨hnext, hadded⟩ := step d List.mem_cons_self generation next h hstep
    obtain ⟨hafter, hrestAdded⟩ :=
      ih (fun d hd => step d (List.mem_cons_of_mem _ hd)) hnext hrest
    refine ⟨hafter, ?_⟩
    rw [hrestAdded, hadded, List.exists_mem_cons_iff, or_assoc]

/-- Where every step adds the same for the same definition, wherever it starts, a run adds what
one of the definitions does. -/
theorem added_steps (observed : Generation → Prop) (adds : Definition → Prop)
    {definitions : List Definition}
    (step : ∀ d generation after, StepsTo dialect generation d after →
      (observed after ↔ observed generation ∨ adds d))
    (hrun : generation.steps dialect definitions = .ok after) :
    observed after ↔ observed generation ∨ ∃ d ∈ definitions, adds d := by
  have hsteps := observed_steps (fun _ => True) observed adds
    (fun d _ generation after _ hstep => ⟨trivial, step d generation after hstep⟩) trivial hrun
  exact hsteps.2

/-- A step stores the names of its definition. -/
theorem contains_stepsTo (h : StepsTo dialect generation d after) (name : String) :
    after.schemas.contains name = true
      ↔ generation.schemas.contains name = true ∨ d.Stores generation.parameters name := by
  have operation {r : Route} {answer : Fragment} {schemas : Store Fragment}
      (hact : r.compile dialect generation.parameters generation.schemas = .ok (answer, schemas)) :
      schemas.contains name = true ↔ generation.schemas.contains name = true
        ∨ ∃ dialect names, (r.compile dialect generation.parameters).Yields (.ok names)
          ∧ name ∈ names := by
    obtain ⟨names, hyields⟩ := Route.yields_ok hact
    rw [hyields.contains_iff hact]
    refine or_congr_right ⟨fun hname => ⟨dialect, names, hyields, hname⟩, ?_⟩
    rintro ⟨dialect', names', hyields', hname⟩
    have alike := Parameter.Alike.refl generation.parameters
    cases ((r.sameOutcome alike).yields hyields').unique hyields
    exact hname
  cases h with
  | plain hact => exact Site.contains_compile_iff hact
  | schema hact => exact Site.contains_compile_iff hact
  | parameter hact =>
    obtain ⟨_, _, ⟨answer, hcompile⟩, _⟩ := Parameter.of_register hact
    exact Site.contains_compile_iff hcompile
  | component c => simp [Definition.Stores]
  | route hact => exact operation hact
  | webhook _ hact => exact operation hact

/-- A step registers the parameter of its definition. -/
theorem signature?_stepsTo (h : StepsTo dialect generation d after) (refId : String)
    (signature : Option String × Option String) :
    Parameter.signature? after.parameters refId = some signature
      ↔ Parameter.signature? generation.parameters refId = some signature
        ∨ d.Registers refId signature := by
  cases h with
  | @parameter s schemas parameters hact =>
    obtain ⟨declared, hdeclared, _, hagree, hupdated⟩ := Parameter.of_register hact
    rw [show Parameter.signature? parameters refId = _ from hupdated refId]
    have hregisters : Definition.Registers refId signature (.parameter s)
        ↔ s.refId? = some refId ∧ declared = signature := by
      simp [Definition.Registers, hdeclared]
    rw [hregisters]
    by_cases hrefId : s.refId? = some refId
    · rw [if_pos hrefId, Option.some_inj]
      constructor
      · exact fun h => Or.inr ⟨hrefId, h⟩
      · rintro (hold | ⟨_, h⟩)
        · exact (hagree refId signature hrefId hold).symm
        · exact h
    · simp [hrefId]
  | plain _ | schema _ | component _ | route _ | webhook _ _ => simp [Definition.Registers]

/-- A step adds the operation of a route. -/
theorem paths_stepsTo (h : StepsTo dialect generation d after) (path key : String) :
    Entries.containsWithin after.paths path key = true
      ↔ Entries.containsWithin generation.paths path key = true ∨ d.Routes path key := by
  cases h with
  | route _ => simp [Definition.Routes, PathItems.containsWithin_put]
  | plain _ | schema _ | parameter _ | component _ | webhook _ _ => simp [Definition.Routes]

/-- A step adds the operation of a webhook. -/
theorem webhooks_stepsTo (h : StepsTo dialect generation d after) (path key : String) :
    Entries.containsWithin after.webhooks path key = true
      ↔ Entries.containsWithin generation.webhooks path key = true ∨ d.Hooks path key := by
  cases h with
  | webhook _ _ => simp [Definition.Hooks, PathItems.containsWithin_put]
  | plain _ | schema _ | parameter _ | component _ | route _ => simp [Definition.Hooks]

/-- A run has registered what was registered before, and what its definitions register. -/
theorem signature?_steps {definitions : List Definition}
    (h : generation.steps dialect definitions = .ok after) (refId : String)
    (signature : Option String × Option String) :
    Parameter.signature? after.parameters refId = some signature
      ↔ Parameter.signature? generation.parameters refId = some signature
        ∨ ∃ d ∈ definitions, d.Registers refId signature :=
  added_steps (fun generation => Parameter.signature? generation.parameters refId = some signature)
    (fun d => d.Registers refId signature)
    (fun _ _ _ hstep => signature?_stepsTo hstep refId signature) h

/-- Only parameters are registered. -/
theorem parameters_stepsTo (h : StepsTo dialect generation d after) (hd : d.isOperation = true) :
    after.parameters = generation.parameters := by
  cases h with
  | route _ | webhook _ _ => rfl
  | plain _ | schema _ | parameter _ | component _ => simp [Definition.isOperation] at hd

/-- A run over operations leaves the registered parameters alone. -/
theorem parameters_steps {definitions : List Definition}
    (hops : ∀ d ∈ definitions, d.isOperation = true)
    (h : generation.steps dialect definitions = .ok after) :
    after.parameters = generation.parameters := by
  induction definitions generalizing generation with
  | nil =>
    cases h
    rfl
  | cons d rest ih =>
    obtain ⟨next, hstep, hrest⟩ := steps_cons_eq_ok h
    rw [ih (fun d hd => hops d (List.mem_cons_of_mem _ hd)) hrest,
      parameters_stepsTo hstep (hops d List.mem_cons_self)]

/-- Finished components are collected as they come. -/
theorem components_steps {definitions : List Definition}
    (h : generation.steps dialect definitions = .ok after) :
    after.components = generation.components ++ definitions.filterMap Definition.finished? := by
  induction definitions generalizing generation with
  | nil =>
    cases h
    simp
  | cons d rest ih =>
    obtain ⟨next, hstep, hrest⟩ := steps_cons_eq_ok h
    rw [ih hrest]
    cases hstep with
    | component c => simp [Definition.finished?]
    | plain _ | schema _ | parameter _ | route _ | webhook _ _ =>
      simp [List.filterMap_cons, Definition.finished?]

/-! ## What a run has in the end -/

/-- A generation has what one of the definitions adds, and nothing else. -/
structure MadeOf (generation : Generation) (definitions : List Definition) : Prop where
  schemas : ∀ name, generation.schemas.contains name = true
    ↔ ∃ d ∈ definitions, d.Stores generation.parameters name
  parameters : ∀ refId signature,
    Parameter.signature? generation.parameters refId = some signature
      ↔ ∃ d ∈ definitions, d.Registers refId signature
  components : ∀ c, c ∈ generation.components ↔ .component c ∈ definitions
  paths : ∀ path key, Entries.containsWithin generation.paths path key = true
    ↔ ∃ d ∈ definitions, d.Routes path key
  webhooks : ∀ path key, Entries.containsWithin generation.webhooks path key = true
    ↔ ∃ d ∈ definitions, d.Hooks path key

/-- The named schemas are those that definitions store in the sight of all parameters: what comes
before operations does not look at parameters, and when operations come all are registered. -/
theorem contains_ofDefinitions {definitions : List Definition}
    (h : ofDefinitions dialect definitions = .ok after) (name : String) :
    after.schemas.contains name = true
      ↔ ∃ d ∈ definitions, d.Stores after.parameters name := by
  rw [ofDefinitions, Definition.byRank_eq_early_late] at h
  obtain ⟨mid, hearly, hlate⟩ := steps_append_eq_ok.mp h
  obtain ⟨_, hmid⟩ := observed_steps (fun _ => True)
    (fun generation => generation.schemas.contains name = true)
    (fun d => d.Stores mid.parameters name)
    (fun d hd generation next _ hstep => by
      refine ⟨trivial, (contains_stepsTo hstep name).trans (or_congr_right ?_)⟩
      exact Definition.stores_congr (Definition.mem_early.mp hd).2)
    trivial hearly
  obtain ⟨hregistered, hafter⟩ := observed_steps
    (fun generation => generation.parameters = mid.parameters)
    (fun generation => generation.schemas.contains name = true)
    (fun d => d.Stores mid.parameters name)
    (fun d hd generation next hkept hstep => by
      have hsame := parameters_stepsTo hstep (Definition.mem_late.mp hd).2
      refine ⟨hsame.trans hkept, ?_⟩
      rw [← hkept]
      exact contains_stepsTo hstep name)
    rfl hlate
  have hempty : ({} : Generation).schemas.contains name = false := rfl
  rw [hafter, hmid, hregistered, hempty]
  simp only [Bool.false_eq_true, false_or]
  exact Definition.exists_mem_early_or_late

/-- A run has what its definitions add, and nothing else. -/
theorem madeOf_ofDefinitions {definitions : List Definition}
    (h : ofDefinitions dialect definitions = .ok after) : after.MadeOf definitions where
  schemas := contains_ofDefinitions h
  parameters refId signature := by
    rw [signature?_steps h]
    simp [Definition.mem_byRank, Parameter.signature?, Store.get?, Entries.get?]
  components c := by
    rw [components_steps h]
    simp [Definition.mem_byRank]
  paths path key := by
    have hsteps := added_steps
      (fun generation => Entries.containsWithin generation.paths path key = true)
      (fun d => d.Routes path key) (fun _ _ _ hstep => paths_stepsTo hstep path key) h
    simpa [Definition.mem_byRank, Entries.containsWithin, Entries.get?] using hsteps
  webhooks path key := by
    have hsteps := added_steps
      (fun generation => Entries.containsWithin generation.webhooks path key = true)
      (fun d => d.Hooks path key) (fun _ _ _ hstep => webhooks_stepsTo hstep path key) h
    simpa [Definition.mem_byRank, Entries.containsWithin, Entries.get?] using hsteps

end Generation

/-! ## Names in an output -/

namespace Json

/-- A group of components. -/
def group? (output : Json) (group : String) : Option Json :=
  (output.member? "components").bind fun components => components.member? group

/-- The operation under a path and a method, among the paths or among the webhooks. -/
def operation? (output : Json) (part path key : String) : Option Json :=
  ((output.member? part).bind fun items => items.member? path).bind fun item => item.member? key

/-- Two outputs have something in the same places: the same groups of components with the same
names in them, and operations under the same paths and methods. -/
structure SameNames (output output' : Json) : Prop where
  groups : ∀ group, (output.group? group).isSome = (output'.group? group).isSome
  components : ∀ group name,
    (output.component? group name).isSome = (output'.component? group name).isSome
  paths : ∀ path key,
    (output.operation? "paths" path key).isSome = (output'.operation? "paths" path key).isSome
  webhooks : ∀ path key,
    (output.operation? "webhooks" path key).isSome
      = (output'.operation? "webhooks" path key).isSome

end Json

namespace RawComponent

theorem grouped_concat (components : List RawComponent) (c : RawComponent) :
    grouped (components ++ [c])
      = Entries.insert (grouped components) c.group
          (Entries.insert ((Entries.get? (grouped components) c.group).getD []) c.name c.value) := by
  unfold grouped
  rw [List.foldl_concat]

theorem containsWithin_grouped (components : List RawComponent) (group name : String) :
    Entries.containsWithin (grouped components) group name = true
      ↔ ∃ c ∈ components, group = c.group ∧ name = c.name := by
  induction components using List.reverseRecOn with
  | nil => simp [grouped, Entries.containsWithin, Entries.get?]
  | append_singleton rest c ih =>
    rw [grouped_concat, Entries.containsWithin_insert
      (fun inner => (Entries.contains_insert _ c.name inner _).trans or_comm), ih]
    simp [or_and_right, exists_or]

theorem contains_grouped (components : List RawComponent) (group : String) :
    Entries.contains (grouped components) group = true ↔ ∃ c ∈ components, group = c.group := by
  induction components using List.reverseRecOn with
  | nil => simp [grouped, Entries.contains, Entries.get?]
  | append_singleton rest c ih =>
    rw [grouped_concat, Entries.contains_insert, ih, or_comm]
    simp [or_and_right, exists_or]

end RawComponent

namespace Generation

theorem containsWithin_overGroup (groups : Entries Fragment) (key : String)
    (compiled : Store Fragment) (group name : String) :
    Entries.containsWithin (overGroup groups key compiled) group name = true
      ↔ Entries.containsWithin groups group name = true
        ∨ group = key ∧ compiled.contains name = true := by
  have hadded (name : String) :
      Entries.contains (Entries.extend ((Entries.get? groups key).getD [])
          (Entries.mapValues Json.object compiled.entries)) name = true
        ↔ Entries.contains ((Entries.get? groups key).getD []) name = true
          ∨ compiled.contains name = true := by
    rw [Entries.contains_extend, or_comm, Entries.contains, Entries.contains,
      Entries.get?_mapValues, Option.isSome_map]
    rfl
  exact Entries.containsWithin_insert hadded group name

theorem contains_overGroup (groups : Entries Fragment) (key : String) (compiled : Store Fragment)
    (group : String) :
    Entries.contains (overGroup groups key compiled) group = true
      ↔ group = key ∨ Entries.contains groups group = true := by
  unfold overGroup
  exact Entries.contains_insert _ _ _ _

/-- What a generation has under a name in a group: what is compiled into it, and what is finished. -/
theorem isSome_component? (generation : Generation) (group name : String) :
    ((Json.object (generation.writeOver [])).component? group name).isSome = true
      ↔ (group = "schemas" ∧ generation.schemas.contains name = true)
        ∨ (group = "parameters" ∧ generation.parameters.contains name = true)
        ∨ ∃ c ∈ generation.components, group = c.group ∧ name = c.name := by
  rw [component?_writeOver]
  show Entries.containsWithin _ group name = true ↔ _
  rw [containsWithin_overGroup, containsWithin_overGroup, RawComponent.containsWithin_grouped,
    or_assoc, or_comm, or_assoc]

theorem group?_writeOver (generation : Generation) (group : String) :
    (Json.object (generation.writeOver [])).group? group
      = (Entries.get? (overGroup (overGroup (RawComponent.grouped generation.components) "schemas"
          generation.schemas) "parameters" generation.parameters) group).map Json.object := by
  unfold Json.group?
  rw [member?_writeOver_components, Option.bind_some]
  exact Entries.get?_mapValues _ _ _

/-- There are always groups for schemas and for parameters. -/
theorem isSome_group? (generation : Generation) (group : String) :
    ((Json.object (generation.writeOver [])).group? group).isSome = true
      ↔ group = "schemas" ∨ group = "parameters" ∨ ∃ c ∈ generation.components, group = c.group := by
  rw [group?_writeOver, Option.isSome_map]
  show Entries.contains _ group = true ↔ _
  rw [contains_overGroup, contains_overGroup, RawComponent.contains_grouped]
  exact or_left_comm

/-- The other groups are those that were finished. -/
theorem group?_of_ne (generation : Generation) {group : String} (hschemas : group ≠ "schemas")
    (hparameters : group ≠ "parameters") :
    (Json.object (generation.writeOver [])).group? group
      = (Entries.get? (RawComponent.grouped generation.components) group).map Json.object := by
  rw [group?_writeOver, get?_overGroup_of_ne _ _ hparameters, get?_overGroup_of_ne _ _ hschemas]

theorem isSome_operation?_items (items : PathItems) (path key : String) :
    (((Json.object items.toFragment).member? path).bind fun item => item.member? key).isSome
      = Entries.containsWithin items path key := by
  show ((Entries.get? (Entries.mapValues Json.object items) path).bind _).isSome = _
  rw [Entries.get?_mapValues, Option.bind_map]
  rfl

theorem isSome_operation?_paths (generation : Generation) (path key : String) :
    ((Json.object (generation.writeOver [])).operation? "paths" path key).isSome
      = Entries.containsWithin generation.paths path key := by
  rw [Json.operation?, member?_writeOver_paths, Option.bind_some]
  exact isSome_operation?_items _ path key

theorem isSome_operation?_webhooks (generation : Generation) (path key : String) :
    ((Json.object (generation.writeOver [])).operation? "webhooks" path key).isSome
      = Entries.containsWithin generation.webhooks path key := by
  rw [Json.operation?, member?_writeOver_webhooks]
  cases hwebhooks : generation.webhooks with
  | nil => rfl
  | cons item rest => exact isSome_operation?_items _ path key

end Generation

/-! ## Definitions decide names -/

namespace Generation

variable {generation generation' : Generation} {definitions definitions' : List Definition}

/-- The same definitions register the same parameters. -/
theorem MadeOf.alike (h : generation.MadeOf definitions) (h' : generation'.MadeOf definitions')
    (same : ∀ d, d ∈ definitions ↔ d ∈ definitions') :
    Parameter.Alike generation.parameters generation'.parameters := by
  intro refId
  refine Option.ext fun signature => ?_
  rw [h.parameters, h'.parameters]
  simp only [same]

/-- What was made of the same definitions has the same names. -/
theorem MadeOf.sameNames (h : generation.MadeOf definitions) (h' : generation'.MadeOf definitions')
    (same : ∀ d, d ∈ definitions ↔ d ∈ definitions') :
    (Json.object (generation.writeOver [])).SameNames (.object (generation'.writeOver [])) := by
  have alike := h.alike h' same
  have hschemas (name : String) : generation.schemas.contains name = true
      ↔ generation'.schemas.contains name = true := by
    rw [h.schemas, h'.schemas]
    constructor
    · rintro ⟨d, hd, hstores⟩
      exact ⟨d, (same d).mp hd, hstores.of_alike alike⟩
    · rintro ⟨d, hd, hstores⟩
      exact ⟨d, (same d).mpr hd, hstores.of_alike alike.symm⟩
  have hcomponents (c : RawComponent) :
      c ∈ generation.components ↔ c ∈ generation'.components := by
    rw [h.components, h'.components, same]
  constructor
  · intro group
    rw [Bool.eq_iff_iff, isSome_group?, isSome_group?]
    simp only [hcomponents]
  · intro group name
    rw [Bool.eq_iff_iff, isSome_component?, isSome_component?]
    simp only [hschemas, alike.contains_iff, hcomponents]
  · intro path key
    rw [Bool.eq_iff_iff, isSome_operation?_paths, isSome_operation?_paths, h.paths, h'.paths]
    simp only [same]
  · intro path key
    rw [Bool.eq_iff_iff, isSome_operation?_webhooks, isSome_operation?_webhooks, h.webhooks,
      h'.webhooks]
    simp only [same]

end Generation

end OpenApi
