/-
# OpenApi.Proofs.ComponentGroups -- what stands in the groups of components

Finished components are put into their groups in the order of submission, so the last one of a name
stands (`RawComponent.get?_grouped`). What was compiled is written over them: a schema that is stored and
a parameter that is registered stand under their names in any case, and a finished component only
where nothing was compiled. No group and no name is lost, and there are no others.

Finished components have a rank of their own and are not looked at by anything that is compiled. So it
makes no difference where among the definitions they are submitted (`Definition.byRank_eq_of_same`).
-/
import OpenApi.Proofs.RequestParameters

namespace OpenApi

/-! ## Finished components -/

namespace RawComponent

/-- The value of the last component that was submitted under a name in a group. -/
def last? (components : List RawComponent) (group name : String) : Option Json :=
  ((components.filter fun c => c.group == group && c.name == name).getLast?).map (·.value)

theorem last?_concat (components : List RawComponent) (c : RawComponent) (group name : String) :
    last? (components ++ [c]) group name
      = if c.group = group ∧ c.name = name then some c.value else last? components group name := by
  unfold last?
  rw [List.filter_append, List.getLast?_append]
  by_cases h : c.group = group ∧ c.name = name
  · simp [h]
  · rw [if_neg h]
    have hout : (c.group == group && c.name == name) = false := by simpa using h
    simp [hout]

theorem isSome_last?_iff {components : List RawComponent} {group name : String} :
    (last? components group name).isSome = true
      ↔ ∃ c ∈ components, c.group = group ∧ c.name = name := by
  simp [last?]

/-- In its group, the last component of a name stands. -/
theorem get?_grouped (components : List RawComponent) (group name : String) :
    Entries.get? ((Entries.get? (grouped components) group).getD []) name
      = last? components group name := by
  induction components using List.reverseRecOn with
  | nil => rfl
  | append_singleton rest c ih =>
    rw [grouped_concat, last?_concat, Entries.get?_insert]
    by_cases hgroup : group = c.group
    · subst hgroup
      rw [if_pos rfl, Option.getD_some, Entries.get?_insert, ih]
      by_cases hname : name = c.name
      · rw [if_pos hname, if_pos ⟨rfl, hname.symm⟩]
      · rw [if_neg hname, if_neg fun h => hname h.2.symm]
    · rw [if_neg hgroup, if_neg fun h => hgroup h.1.symm, ih]

end RawComponent

/-! ## Where components are submitted -/

namespace Definition

variable {definitions definitions' : List Definition}

/-- The finished components among definitions, in the order of submission. -/
def finished (definitions : List Definition) : List RawComponent := definitions.filterMap finished?

/-- The definitions that are compiled, in the order of submission. -/
def compiled (definitions : List Definition) : List Definition :=
  definitions.filter fun d => d.finished?.isNone

theorem finished?_of_rank_ne (d : Definition) (h : d.rank ≠ 3) : d.finished? = none := by
  cases d <;> first | rfl | exact absurd rfl h

theorem finished_byRank : finished (byRank definitions) = finished definitions := by
  have hrank := filterMap_filter_rank finished?_of_rank_ne definitions
  simp [finished, byRank, List.range_succ, hrank]

theorem filter_rank_finished :
    (definitions.filter fun d => d.rank == 3) = (finished definitions).map component := by
  induction definitions with
  | nil => rfl
  | cons d rest ih =>
    cases d with
    | component c =>
      rw [List.filter_cons_of_pos rfl, ih]
      rfl
    | plain _ | schema _ | parameter _ | route _ | webhook _ =>
      rw [List.filter_cons_of_neg (by simp [rank]), ih]
      rfl

theorem filter_rank_compiled (definitions : List Definition) {n : Nat} (hn : n ≠ 3) :
    (definitions.filter fun d => d.rank == n)
      = (compiled definitions).filter fun d => d.rank == n := by
  rw [compiled, List.filter_filter]
  refine List.filter_congr fun d _ => ?_
  cases d <;> simp [finished?, rank, Ne.symm hn]

/-- The same finished components in the same order, placed elsewhere among the same others, are taken
alike. -/
theorem byRank_eq_of_same (hfinished : finished definitions' = finished definitions)
    (hcompiled : compiled definitions' = compiled definitions) :
    byRank definitions' = byRank definitions := by
  unfold byRank
  congr 1
  funext n
  -- One rank is the finished components, and every other rank has none of them.
  by_cases hn : n = 3
  · rw [hn, filter_rank_finished, filter_rank_finished, hfinished]
  · rw [filter_rank_compiled definitions' hn, hcompiled, ← filter_rank_compiled definitions hn]

end Definition

/-! ## Components in whatever is generated -/

/-- An output that is generated from definitions: the data, the components alone, or a whole document
for the version. -/
inductive Generates (version : Version) (definitions : List Definition) (output : Json) : Prop
  | data : generateData version definitions = .ok output → Generates version definitions output
  | components : generateComponents version definitions = .ok output →
      Generates version definitions output
  | document (config : DocumentConfig) : Version.parse config.openapi = .ok version →
      generateDocument config definitions = .ok output → Generates version definitions output

theorem Generates.generation {version : Version} {definitions : List Definition} {output : Json}
    (h : Generates version definitions output) :
    ∃ generation, Generation.ofDefinitions version.dialect definitions = .ok generation
      ∧ output.member? "components" = some (.object generation.componentGroups) := by
  cases h with
  | data h =>
    obtain ⟨generation, hof, rfl⟩ := generateData_eq_ok h
    exact ⟨generation, hof, generation.member?_writeOver_components []⟩
  | components h =>
    unfold generateComponents at h
    cases hof : Generation.ofDefinitions version.dialect definitions with
    | error problem =>
      rw [hof] at h
      cases h
    | ok generation =>
      rw [hof] at h
      cases h
      exact ⟨generation, rfl, rfl⟩
  | document config hversion h =>
    obtain ⟨version', generation, hversion', hof, rfl⟩ := generateDocument_eq_ok h
    obtain rfl := Except.ok.inj (hversion'.symm.trans hversion)
    exact ⟨generation, hof, generation.member?_writeOver_components config.toFragment⟩

/-- What is generated depends on the order by rank only. -/
theorem Generates.of_byRank_eq {version : Version} {definitions definitions' : List Definition}
    {output : Json} (same : Definition.byRank definitions' = Definition.byRank definitions)
    (h : Generates version definitions output) : Generates version definitions' output := by
  have hof (dialect : Dialect) : Generation.ofDefinitions dialect definitions'
      = Generation.ofDefinitions dialect definitions := by
    rw [Generation.ofDefinitions, same, Generation.ofDefinitions]
  cases h with
  | data h => exact .data (by rw [generateData, hof]; exact h)
  | components h => exact .components (by rw [generateComponents, hof]; exact h)
  | document config hversion h =>
    refine .document config hversion ?_
    unfold generateDocument at h ⊢
    simp only [hof]
    exact h

namespace Generation

theorem component?_of_ne (generation : Generation) {group : String} (hschemas : group ≠ "schemas")
    (hparameters : group ≠ "parameters") (name : String) :
    (Json.object (generation.writeOver [])).component? group name
      = RawComponent.last? generation.components group name := by
  rw [component?_writeOver, get?_overGroup_of_ne _ _ hparameters, get?_overGroup_of_ne _ _ hschemas,
    ← RawComponent.get?_grouped]
  cases Entries.get? (RawComponent.grouped generation.components) group <;> rfl

end Generation

/-- The components of whatever is generated: there are groups for schemas, for parameters and for the
finished components that were submitted, and no others. A schema that is stored and a parameter that is
registered stand under their names. Under any other name, and in any other group, stands the last
finished component that was submitted for it, if there was one. Where the finished components were
placed among the definitions makes no difference. -/
theorem components_assembled {version : Version} {definitions : List Definition} {output : Json}
    (h : Generates version definitions output) :
    ∃ generation, Generation.ofDefinitions version.dialect definitions = .ok generation
      ∧ (∀ group, (output.group? group).isSome = true ↔ group = "schemas" ∨ group = "parameters"
          ∨ ∃ c ∈ Definition.finished definitions, c.group = group)
      ∧ (∀ name, output.component? "schemas" name = ((generation.schemas.get? name).map .object).or
          (RawComponent.last? (Definition.finished definitions) "schemas" name))
      ∧ (∀ name, output.component? "parameters" name
          = ((generation.parameters.get? name).map .object).or
              (RawComponent.last? (Definition.finished definitions) "parameters" name))
      ∧ (∀ group, group ≠ "schemas" → group ≠ "parameters" → ∀ name,
          output.component? group name
              = RawComponent.last? (Definition.finished definitions) group name
            ∧ ((output.component? group name).isSome = true
              ↔ ∃ c ∈ Definition.finished definitions, c.group = group ∧ c.name = name))
      ∧ ∀ definitions', Definition.finished definitions' = Definition.finished definitions →
          Definition.compiled definitions' = Definition.compiled definitions →
            Generates version definitions' output := by
  obtain ⟨generation, hof, hcomponents⟩ := h.generation
  have hmember : output.member? "components"
      = (Json.object (generation.writeOver [])).member? "components" := by
    rw [hcomponents, generation.member?_writeOver_components]
  have hgroup (group : String) :
      output.group? group = (Json.object (generation.writeOver [])).group? group := by
    rw [Json.group?, hmember, Json.group?]
  have hcomponent (group name : String) : output.component? group name
      = (Json.object (generation.writeOver [])).component? group name := by
    rw [Json.component?, hmember, Json.component?]
  have hfinished : generation.components = Definition.finished definitions := by
    rw [Generation.components_steps hof, ← Definition.finished_byRank]
    rfl
  have hother (group : String) (hschemas : group ≠ "schemas") (hparameters : group ≠ "parameters")
      (name : String) : output.component? group name
        = RawComponent.last? (Definition.finished definitions) group name := by
    rw [hcomponent, generation.component?_of_ne hschemas hparameters, hfinished]
  -- From here on it makes no difference which output it is.
  refine ⟨generation, hof, ?groups, ?schemas, ?parameters, ?others, ?placed⟩
  case groups =>
    intro group
    rw [hgroup, Generation.isSome_group?, hfinished]
    simp only [eq_comm]
  case schemas =>
    intro name
    have hempty : ({} : Generation).schemas.Unique := List.nodup_nil
    have unique : generation.schemas.Unique := Generation.unique_of_steps hempty hof
    rw [hcomponent, Generation.component?_schemas, Generation.get?_extend_compiled unique,
      RawComponent.get?_grouped, hfinished]
  case parameters =>
    intro name
    have hempty : ({} : Generation).parameters.Unique := List.nodup_nil
    have unique : generation.parameters.Unique := Generation.unique_parameters_steps hempty hof
    rw [hcomponent, Generation.component?_parameters, Generation.get?_extend_compiled unique,
      RawComponent.get?_grouped, hfinished]
  case others =>
    intro group hschemas hparameters name
    have hlast := hother group hschemas hparameters name
    exact ⟨hlast, by rw [hlast, RawComponent.isSome_last?_iff]⟩
  case placed =>
    intro definitions' hsame hcompiled
    exact h.of_byRank_eq (Definition.byRank_eq_of_same hsame hcompiled)

/-- Finished components beside a schema that is stored under the name of one of them, between the others:
the schema stands there, and of two components of one name the later one. It is the same where the
schema is submitted last. -/
theorem finished_beside_compiled :
    let raw (group name text : String) : Definition := .component ⟨group, name, .string text⟩
    let tag : Definition := .schema ((Schema.ofKind (.string [])).named "Tag")
    let definitions := [raw "schemas" "Tag" "finished", raw "schemas" "Extra" "first", tag,
      raw "parameters" "Tag" "parameter", raw "schemas" "Extra" "last", raw "headers" "Tag" "header"]
    let moved := [raw "schemas" "Tag" "finished", raw "schemas" "Extra" "first",
      raw "parameters" "Tag" "parameter", raw "schemas" "Extra" "last", raw "headers" "Tag" "header", tag]
    ∃ output, generateData .v310 definitions = .ok output
      ∧ output.component? "schemas" "Tag" = some (.object [("type", .string "string")])
      ∧ output.component? "schemas" "Extra" = some (.string "last")
      ∧ output.component? "parameters" "Tag" = some (.string "parameter")
      ∧ output.component? "headers" "Tag" = some (.string "header")
      ∧ (output.component? "headers" "Extra").isSome = false
      ∧ (output.group? "links").isSome = false
      ∧ Generates .v310 moved output := by
  intro raw tag definitions moved
  obtain ⟨output, houtput⟩ : ∃ output, generateData .v310 definitions = .ok output := ⟨_, rfl⟩
  obtain ⟨generation, hof, hgroups, hschemas, hparameters, hothers, hplaced⟩ :=
    components_assembled (.data houtput)
  have hgeneration : generation.schemas = ⟨[("Tag", [("type", .string "string")])]⟩
      ∧ generation.parameters = {} := by
    cases hof
    exact ⟨rfl, rfl⟩
  refine ⟨output, houtput, (hschemas "Tag").trans ?_, (hschemas "Extra").trans ?_,
    (hparameters "Tag").trans ?_, (hothers "headers" (by decide) (by decide) "Tag").1,
    ?_, ?_, hplaced moved rfl rfl⟩
  · rw [hgeneration.1]
    rfl
  · rw [hgeneration.1]
    rfl
  · rw [hgeneration.2]
    rfl
  · rw [(hothers "headers" (by decide) (by decide) "Extra").1]
    rfl
  · rw [Bool.eq_false_iff, ne_eq, hgroups]
    decide

end OpenApi
