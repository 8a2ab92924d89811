/-
# OpenApi.Proofs.ReferenceClosure -- every reference in an output resolves in that output

A reference is a text under `$ref`, and a target is a text in the mapping of a discriminator.
That both lead to components that there are is a law, and it is lawful: a compilation refers to an
identifier only when it is in stock. What is in stock in the end is found among the components
of the output.
-/
import OpenApi.Proofs.LawfulGeneration

namespace OpenApi

/-! ## The law of references -/

/-- A mapping was given, or leads to stored schemas only. -/
def Stock.Tells (stock : Stock) (given : Fragment → Prop) (mapping : Fragment) : Prop :=
  given mapping ∨ stock.Maps mapping

/-- References lead to components, and mappings that were not given lead to schemas. A fragment
may be put under `discriminator`, so a mapping in it has to be one that may stand there. -/
def referenceLaw (given : Fragment → Prop) : Law where
  Binds := True
  Keys _ := True
  Allows stock e :=
    (∀ path, e = ("$ref", .string path) → stock.Resolves path)
      ∧ ∀ members mapping, e = ("discriminator", .object members) →
          ("mapping", .object mapping) ∈ members → stock.Tells given mapping
  Seals stock e :=
    (∀ path, e = ("$ref", .string path) → stock.Resolves path)
      ∧ (∀ members mapping, e = ("discriminator", .object members) →
          ("mapping", .object mapping) ∈ members → stock.Tells given mapping)
      ∧ ∀ mapping, e = ("mapping", .object mapping) → stock.Tells given mapping
  Grants e :=
    (∀ path, e ≠ ("$ref", .string path))
      ∧ (∀ members mapping, e = ("discriminator", .object members) →
          ("mapping", .object mapping) ∈ members → given mapping)
      ∧ ∀ mapping, e = ("mapping", .object mapping) → given mapping

/-- Keys that references and discriminators have to themselves. -/
def referenceKeys : List String := ["$ref", "discriminator", "mapping"]

theorem Written.key_not_mem {dialect : Dialect} {e : String × Json} (h : Written dialect e) :
    e.1 ∉ referenceKeys := by
  have hplain : ∀ key ∈ plainKeys, key ∉ referenceKeys := by decide
  have hcompositions : ∀ key ∈ compositionKeys, key ∉ referenceKeys := by decide
  rcases h.key_mem with hkey | ⟨hkey, _⟩
  · exact hplain _ hkey
  · exact hcompositions _ hkey

theorem Stock.Tells.mono {small large : Stock} (h : small ≤ large) {given : Fragment → Prop}
    {mapping : Fragment} (ht : small.Tells given mapping) : large.Tells given mapping :=
  ht.imp_right (Stock.Maps.mono h)

theorem referenceLaw_seals_of_key {given : Fragment → Prop} {stock : Stock} {e : String × Json}
    (h : e.1 ∉ referenceKeys) : (referenceLaw given).Seals stock e := by
  have hne {key : String} (hkey : key ∈ referenceKeys) (value : Json) : e ≠ (key, value) := by
    rintro rfl
    exact h hkey
  exact ⟨fun _ he => absurd he (hne (by decide) _), fun _ _ he => absurd he (hne (by decide) _),
    fun _ he => absurd he (hne (by decide) _)⟩

/-- The law of references grants every composition, since it says nothing about them. -/
theorem referenceLaw_fills (given : Fragment → Prop) (t : Site) : (referenceLaw given).Fills t := by
  intro key hhollow
  have hreference : ∀ key ∈ compositionKeys, key ≠ "$ref" := by decide
  refine ⟨fun path he => ?_, fun _ _ he => ?_, fun _ he => ?_⟩
  · exact hreference key hhollow.2.key_mem (congrArg Prod.fst he)
  · cases he
  · cases he

/-- Compilations keep the law of references. -/
theorem referenceLaw_lawful (given : Fragment → Prop) (dialect : Dialect) :
    (referenceLaw given).Lawful dialect where
  keys_nil := trivial
  keys_snoc _ _ := trivial
  keys_sublist _ _ := trivial
  allows_mono h := by
    rintro ⟨hreference, htells⟩
    exact ⟨fun path he => (hreference path he).mono h,
      fun members mapping he hmem => (htells members mapping he hmem).mono h⟩
  seals_mono h := by
    rintro ⟨hreference, htells, hmapping⟩
    exact ⟨fun path he => (hreference path he).mono h,
      fun members mapping he hmem => (htells members mapping he hmem).mono h,
      fun mapping he => (hmapping mapping he).mono h⟩
  allows h := ⟨h.1, h.2.1⟩
  placed key h := by
    refine ⟨fun path he => ?_, fun members mapping he hmem => ?_⟩
    · cases he
    · cases he
      exact (h _ hmem).2.2 mapping rfl
  granted stock := by
    rintro ⟨hreference, htells, hmapping⟩
    exact ⟨fun path he => absurd he (hreference path),
      fun members mapping he hmem => Or.inl (htells members mapping he hmem),
      fun mapping he => Or.inl (hmapping mapping he)⟩
  written _ h := referenceLaw_seals_of_key h.key_not_mem
  reference h := by
    have hdiscriminator : "$ref" ≠ "discriminator" := by decide
    have hmapping : "$ref" ≠ "mapping" := by decide
    refine ⟨fun path he => ?_, fun _ _ he => absurd (congrArg Prod.fst he) hdiscriminator,
      fun _ he => absurd (congrArg Prod.fst he) hmapping⟩
    cases he
    exact h trivial
  mapping h := by
    have hreference : "mapping" ≠ "$ref" := by decide
    have hdiscriminator : "mapping" ≠ "discriminator" := by decide
    refine ⟨⟨fun _ he => absurd (congrArg Prod.fst he) hreference,
      fun _ _ he => absurd (congrArg Prod.fst he) hdiscriminator⟩, fun e he => ?_⟩
    -- A value of a discriminator may be called `$ref`: its target is a reference that resolves.
    obtain ⟨refId, hrefId, htarget⟩ := h e he
    refine ⟨fun path hpath => ?_, fun members mapping hmembers => ?_⟩
    · rw [hpath] at htarget
      cases htarget
      exact Or.inl ⟨refId, hrefId, rfl⟩
    · rw [hmembers] at htarget
      cases htarget
  discriminator h := by
    have hreference : "discriminator" ≠ "$ref" := by decide
    have hmapping : "discriminator" ≠ "mapping" := by decide
    have hname : "mapping" ≠ "propertyName" := by decide
    refine ⟨fun _ he => absurd (congrArg Prod.fst he) hreference, fun members mapping he hmem => ?_,
      fun _ he => absurd (congrArg Prod.fst he) hmapping⟩
    cases he
    rcases List.mem_cons.mp hmem with hmem | hmem
    · exact absurd (congrArg Prod.fst hmem) hname
    · cases List.mem_singleton.mp hmem
      exact Or.inr h

/-! ## References resolve -/

namespace Reference

theorem path_inj {group name name' : String} (h : path group name = path group name') :
    name = name' := by
  unfold path at h
  exact String.append_right_inj _ |>.mp h

theorem schemaPath_ne_parameterPath (refId refId' : String) :
    schemaPath refId ≠ parameterPath refId' := by
  intro h
  have hdata := congrArg String.toList h
  simp [schemaPath, parameterPath, path] at hdata

end Reference

/-- Every schema of a definition is linked as an extension links it, and nothing given with the
definition has a text under a key `$ref`. -/
structure Definition.WellFormed (d : Definition) : Prop where
  linked : ∀ s ∈ d.schemas, s.Linked
  references : ∀ value, d.Gives value → ∀ path, ¬ value.Holds "$ref" (.string path)

/-- A mapping that stands somewhere in what was given with definitions. -/
def Definition.GivesMapping (definitions : List Definition) (mapping : Fragment) : Prop :=
  ∃ d ∈ definitions, ∃ value, d.Gives value ∧ value.Holds "mapping" (.object mapping)

/-- Every mapping that a definition brings into the document is one of those allowed for. -/
def Definition.Supplies (supplied : Fragment → Prop) (d : Definition) : Prop :=
  ∀ value, d.Gives value → ∀ mapping, value.Holds "mapping" (.object mapping) → supplied mapping

theorem Definition.WellFormed.admits_of_supplies {supplied : Fragment → Prop} {d : Definition}
    (h : d.WellFormed) (hd : d.Supplies supplied) : (referenceLaw supplied).Admits d := by
  have hclean (value : Json) (hvalue : d.Gives value) : (referenceLaw supplied).Clean value := by
    intro members hin
    have hmapping {inner mapping : Fragment} (hinner : Json.Inside (.object inner) value)
        (hmem : ("mapping", .object mapping) ∈ inner) : supplied mapping :=
      hd value hvalue mapping ⟨inner, hinner, hmem⟩
    refine ⟨trivial, fun e he => ⟨?_, ?_, ?_⟩⟩
    · rintro path rfl
      exact h.references value hvalue path ⟨members, hin, he⟩
    · rintro inner mapping rfl hmem
      exact hmapping (Json.Inside.trans (.member he .self) hin) hmem
    · rintro mapping rfl
      exact hmapping hin he
  constructor
  · exact fun s hs => ⟨fun _ => h.linked s hs, fun _ _ _ _ _ _ => trivial,
      fun value hvalue => hclean value (Or.inr ⟨s, hs, hvalue⟩),
      fun t _ => referenceLaw_fills supplied t.site⟩
  · exact fun value hvalue => hclean value (Or.inl hvalue)

theorem Definition.WellFormed.admits {definitions : List Definition} {d : Definition}
    (h : d.WellFormed) (hd : d ∈ definitions) :
    (referenceLaw (Definition.GivesMapping definitions)).Admits d :=
  h.admits_of_supplies fun value hvalue _ hmapping => ⟨d, hd, value, hvalue, hmapping⟩

/-- Where definitions are well formed, every reference in what is generated from them resolves
there: a path that stands under `$ref` is the path of a schema or of a parameter that is found
among the components, and so is every target of a discriminator's mapping, unless the mapping
was given by a caller. -/
theorem references_resolve {version : Version} {definitions : List Definition} {output : Json}
    (wellFormed : ∀ d ∈ definitions, d.WellFormed)
    (h : generateData version definitions = .ok output) :
    (∀ path, output.Holds "$ref" (.string path) →
        (∃ refId, path = Reference.schemaPath refId
          ∧ (output.component? "schemas" refId).isSome = true)
        ∨ ∃ refId, path = Reference.parameterPath refId
          ∧ (output.component? "parameters" refId).isSome = true)
      ∧ (∀ refId, output.Holds "$ref" (.string (Reference.schemaPath refId)) →
          (output.component? "schemas" refId).isSome = true)
      ∧ (∀ refId, output.Holds "$ref" (.string (Reference.parameterPath refId)) →
          (output.component? "parameters" refId).isSome = true)
      ∧ ∀ members mapping, output.Holds "discriminator" (.object members) →
          ("mapping", .object mapping) ∈ members →
          Definition.GivesMapping definitions mapping
            ∨ ∀ e ∈ mapping, ∃ refId, e.2 = .string (Reference.schemaPath refId)
              ∧ (output.component? "schemas" refId).isSome = true := by
  obtain ⟨generation, hrun, rfl⟩ := generateData_eq_ok h
  have lawful := referenceLaw_lawful (Definition.GivesMapping definitions) version.dialect
  have hobeys := Generation.obeys_of_ofDefinitions lawful (fun _ => trivial)
    (fun d hd => (wellFormed d hd).admits hd) hrun
  have hclosed := hobeys.closed_output lawful fun _ => trivial
  have hreference : ∀ path, (Json.object (generation.writeOver [])).Holds "$ref" (.string path) →
      generation.stock.Resolves path := by
    rintro path ⟨members, hin, hmem⟩
    exact ((hclosed members hin).2 _ hmem).1 path rfl
  refine ⟨fun path hpath => ?_, fun refId hpath => ?_, fun refId hpath => ?_, ?_⟩
  · rcases hreference path hpath with ⟨refId, hrefId, rfl⟩ | ⟨refId, hrefId, rfl⟩
    · exact Or.inl ⟨refId, rfl, Generation.isSome_component?_schemas hrefId⟩
    · exact Or.inr ⟨refId, rfl, Generation.isSome_component?_parameters hrefId⟩
  · rcases hreference _ hpath with ⟨other, hother, heq⟩ | ⟨other, _, heq⟩
    · rw [Reference.path_inj heq]
      exact Generation.isSome_component?_schemas hother
    · exact absurd heq (Reference.schemaPath_ne_parameterPath refId other)
  · rcases hreference _ hpath with ⟨other, _, heq⟩ | ⟨other, hother, heq⟩
    · exact absurd heq.symm (Reference.schemaPath_ne_parameterPath other refId)
    · rw [Reference.path_inj heq]
      exact Generation.isSome_component?_parameters hother
  · rintro members mapping ⟨whole, hin, hmem⟩ hmapping
    rcases ((hclosed whole hin).2 _ hmem).2 members mapping rfl hmapping with hgiven | htargets
    · exact Or.inl hgiven
    · refine Or.inr fun e he => ?_
      obtain ⟨refId, hrefId, htarget⟩ := htargets e he
      exact ⟨refId, htarget, Generation.isSome_component?_schemas hrefId⟩

/-- An extension of a named object refers to that object, which is among the components. -/
theorem extension_resolves :
    let parent := (Schema.object [("a", Schema.ofKind .boolean)]).named "P"
    let child := (parent.extend [("b", Schema.ofKind .boolean)]).named "C"
    ∃ output, generateData .v310 [.schema child] = .ok output
      ∧ output.Holds "$ref" (.string (Reference.schemaPath "P"))
      ∧ (output.component? "schemas" "P").isSome = true := by
  intro parent child
  have hboolean : ∀ t, (Schema.ofKind .boolean).Contains t → t = Schema.ofKind .boolean := by
    intro t ht
    rcases Schema.contains_iff.mp ht with h | ⟨c, hc, _⟩
    · exact h
    · cases hc
  have hparent : ∀ t, parent.Contains t → t = parent ∨ t = Schema.ofKind .boolean := by
    intro t ht
    rcases Schema.contains_iff.mp ht with h | ⟨c, hc, hct⟩
    · exact Or.inl h
    · rw [List.mem_singleton.mp hc] at hct
      exact Or.inr (hboolean t hct)
  have hchild : ∀ t, child.Contains t →
      t = child ∨ t = parent ∨ t = Schema.ofKind .boolean := by
    intro t ht
    rcases Schema.contains_iff.mp ht with h | ⟨c, hc, hct⟩
    · exact Or.inl h
    · have hmem : c ∈ [Schema.ofKind .boolean, Schema.ofKind .boolean, parent] := hc
      simp only [List.mem_cons, List.not_mem_nil, or_false, or_self_left] at hmem
      rcases hmem with rfl | rfl
      · exact Or.inr (Or.inr (hboolean t hct))
      · exact Or.inr (hparent t hct)
  have hwellFormed : ∀ d ∈ [Definition.schema child], d.WellFormed := by
    intro d hd
    rw [List.mem_singleton.mp hd]
    constructor
    · intro s hs t ht link hlink
      rw [List.mem_singleton.mp hs] at ht
      rcases hchild t ht with rfl | rfl | rfl <;> cases hlink
      rfl
    · rintro value (hvalue | ⟨s, hs, t, ht, hvalue⟩)
      · cases hvalue
      · rw [List.mem_singleton.mp hs] at ht
        rcases hchild t ht with rfl | rfl | rfl <;> cases hvalue
  refine ⟨_, rfl, ?_, (references_resolve hwellFormed rfl).2.1 "P" ?_⟩
  all_goals
    refine ⟨Reference.toSchema "P", ?_, List.mem_cons_self⟩
    refine .member (e := ("components", _)) List.mem_cons_self ?_
    refine .member (e := ("schemas", _)) List.mem_cons_self ?_
    refine .member (e := ("C", _)) (List.mem_cons_of_mem _ List.mem_cons_self) ?_
    refine .member (e := ("allOf", _)) List.mem_cons_self ?_
    exact .item List.mem_cons_self .self

end OpenApi
