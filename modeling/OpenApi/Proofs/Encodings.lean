/-
# OpenApi.Proofs.Encodings -- a document has the encodings of its own version only

The dialects write null and exclusive bounds differently. A member of an object is `Foreign` to a
dialect if only the other dialect would write it. That nothing foreign is written is a law, and it
is lawful: whatever a compilation writes is in its own dialect, and under the keys concerned
nothing else is put, also where properties, statuses or components are called like these keys,
since then objects stand under them.

Finished components are the one exception. They stand in their group under the names that they
were submitted with, and a value under a name looks like a value under a key. So they are left out
of the run (`Generation.steps_without_finished`), which compiles the same without them, and the
groups of components are looked at by themselves.
-/
import OpenApi.Proofs.GeneratedNames
import OpenApi.Proofs.LawfulGeneration

namespace OpenApi

/-! ## Encodings of the other dialect -/

namespace Dialect

/-- The keys under which the dialects write different values. -/
def encodingKeys : List String := ["type", "nullable", "exclusiveMinimum", "exclusiveMaximum"]

/-- A member that is written in the other dialect only: a flag for null or for an exclusive bound,
or else a list of types, the type of null, or a number for an exclusive bound. -/
def Foreign : Dialect → String × Json → Prop
  | types, e => e.1 ∈ ["nullable", "exclusiveMinimum", "exclusiveMaximum"] ∧ ∃ b, e.2 = .bool b
  | flags, e =>
    (e.1 = "type" ∧ (e.2 = .string "null" ∨ ∃ items, e.2 = .array items))
      ∨ e.1 ∈ ["exclusiveMinimum", "exclusiveMaximum"] ∧ ∃ n, e.2 = .number n

variable {dialect : Dialect} {e : String × Json}

theorem Foreign.key_mem (h : dialect.Foreign e) : e.1 ∈ encodingKeys := by
  have hbounds : ["exclusiveMinimum", "exclusiveMaximum"] ⊆ encodingKeys := by decide
  have hmarks : ["nullable", "exclusiveMinimum", "exclusiveMaximum"] ⊆ encodingKeys := by decide
  cases dialect with
  | types => exact hmarks h.1
  | flags =>
    rcases h with ⟨hkey, _⟩ | ⟨hkey, _⟩
    · rw [hkey]
      exact List.mem_cons_self
    · exact hbounds hkey

theorem not_foreign_object (key : String) (members : Fragment) :
    ¬ dialect.Foreign (key, .object members) := by
  intro h
  cases dialect <;> simp [Foreign] at h

theorem not_foreign_string (key : String) {text : String} (h : text ≠ "null") :
    ¬ dialect.Foreign (key, .string text) := by
  intro hforeign
  cases dialect <;> simp [Foreign, h] at hforeign

theorem numberValue_ne_bool (value : Binary64) (b : Bool) : numberValue value ≠ .bool b := by
  have hbinary : Json.ofBinary64 value ≠ .bool b := by
    cases value <;> simp [Json.ofBinary64]
  unfold numberValue
  split
  · split
    · simp [Json.int]
    · exact hbinary
  · exact hbinary

end Dialect

/-! ## The law of encodings -/

/-- Nothing that only the other dialect writes stands anywhere, and what is given says nothing
under the keys concerned. -/
def encodingLaw (dialect : Dialect) : Law where
  Binds := False
  Keys _ := True
  Allows _ e := ¬ dialect.Foreign e
  Seals _ e := ¬ dialect.Foreign e
  Grants e := e.1 ∉ Dialect.encodingKeys

/-- Compilations write the encodings of their own dialect only. -/
theorem Written.not_foreign {dialect : Dialect} {e : String × Json} (h : Written dialect e) :
    ¬ dialect.Foreign e := by
  have hparts : ∀ key ∈ partKeys, key ∉ Dialect.encodingKeys := by decide
  have hcompositions : ∀ key ∈ compositionKeys, key ∉ Dialect.encodingKeys := by decide
  have hdetails : ∀ key ∈ Shape.detailKeys, key ∉ Dialect.encodingKeys := by decide
  have hbounds : ∀ key ∈ ["minimum", "maximum", "multipleOf"], key ∉ Dialect.encodingKeys := by
    decide
  have hnames : ∀ name ∈ Shape.typeNames, name ≠ "null" := by decide
  intro hforeign
  have hkey := hforeign.key_mem
  cases h with
  | type hname => exact Dialect.not_foreign_string _ (hnames _ hname) hforeign
  | nullType hdialect =>
    subst hdialect
    simp [Dialect.Foreign] at hforeign
  | typeOrNull _ hdialect =>
    subst hdialect
    simp [Dialect.Foreign] at hforeign
  | nullable hdialect =>
    subst hdialect
    simp [Dialect.Foreign] at hforeign
  | bound _ hbound => exact hbounds _ hbound hkey
  | strict hdialect _ =>
    subst hdialect
    simp [Dialect.Foreign] at hforeign
  | strictBound value hdialect _ =>
    subst hdialect
    obtain ⟨_, b, hb⟩ := hforeign
    exact Dialect.numberValue_ne_bool value b hb
  | detail hdetail _ => exact hdetails _ hdetail hkey
  | part _ hpart => exact hparts _ hpart hkey
  | composition hcomposition _ => exact hcompositions _ hcomposition hkey
  | method method _ =>
    have hmethods : method.text ∉ Dialect.encodingKeys := by cases method <;> decide
    exact hmethods hkey

theorem Reference.schemaPath_ne_null (refId : String) : schemaPath refId ≠ "null" := by
  intro h
  have hdata := congrArg String.toList h
  simp [schemaPath, path] at hdata

/-- Compilations keep the law of encodings. -/
theorem encodingLaw_lawful (dialect : Dialect) : (encodingLaw dialect).Lawful dialect where
  keys_nil := trivial
  keys_snoc _ _ := trivial
  keys_sublist _ _ := trivial
  allows_mono _ h := h
  seals_mono _ h := h
  allows h := h
  placed key _ := Dialect.not_foreign_object key _
  granted _ h := fun hforeign => h hforeign.key_mem
  written _ h := h.not_foreign
  reference _ := by
    have href : "$ref" ∉ Dialect.encodingKeys := by decide
    exact fun hforeign => href hforeign.key_mem
  mapping h := by
    refine ⟨Dialect.not_foreign_object _ _, ?_⟩
    -- A value of a discriminator may be called like one of the keys: its target is a path.
    rintro ⟨value, target⟩ he
    obtain ⟨refId, _, htarget⟩ := h _ he
    cases htarget
    exact Dialect.not_foreign_string value (Reference.schemaPath_ne_null refId)
  discriminator _ := Dialect.not_foreign_object _ _

/-! ## Definitions without encodings in what is given -/

/-- No object inside a value has one of the given keys. -/
def Json.Avoids (keys : List String) (value : Json) : Prop :=
  value.Everywhere fun members => ∀ e ∈ members, e.1 ∉ keys

/-- A value that a caller wrote and that a definition brings into the document. The name of a
finished component is no part of its value. -/
def Definition.Brings (d : Definition) (value : Json) : Prop :=
  match d.finished? with
  | some c => value = c.value
  | none => d.Gives value

theorem Json.Avoids.clean {dialect : Dialect} {value : Json}
    (h : value.Avoids Dialect.encodingKeys) : (encodingLaw dialect).Clean value :=
  Json.Everywhere.mono (fun _ hmembers => ⟨trivial, hmembers⟩) h

/-- Definitions other than finished components satisfy the law by what is given with them. -/
theorem Definition.admits_encodingLaw {dialect : Dialect} {d : Definition}
    (compiled : d.finished? = none)
    (h : ∀ value, d.Brings value → value.Avoids Dialect.encodingKeys) :
    (encodingLaw dialect).Admits d := by
  have hclean (value : Json) (hvalue : d.Gives value) : (encodingLaw dialect).Clean value := by
    refine (h value ?_).clean
    rw [Brings, compiled]
    exact hvalue
  have hcompositions : ∀ key ∈ compositionKeys, key ∉ Dialect.encodingKeys := by decide
  refine ⟨fun s hs => ⟨fun hbinds => hbinds.elim, fun _ _ _ _ _ _ => trivial, ?_, ?_⟩, ?_⟩
  · exact fun value hvalue => hclean value (Or.inr ⟨s, hs, hvalue⟩)
  · exact fun t _ key hhollow => hcompositions key hhollow.2.key_mem
  · exact fun value hvalue => hclean value (Or.inl hvalue)

/-! ## Runs without finished components -/

namespace Generation

variable {dialect : Dialect} {generation after : Generation}

/-- Finished components are carried along, and nothing is compiled from them: a run without them
comes to the same. -/
theorem steps_without_finished {definitions : List Definition}
    (h : generation.steps dialect definitions = .ok after) :
    { generation with components := [] }.steps dialect
        (definitions.filter fun d => d.finished?.isNone)
      = .ok { after with components := [] } := by
  induction definitions generalizing generation with
  | nil =>
    cases h
    rfl
  | cons d rest ih =>
    obtain ⟨next, hstep, hrest⟩ := steps_cons_eq_ok h
    have hnext := ih hrest
    have kept (hd : d.finished? = none)
        (hstep : StepsTo dialect { generation with components := [] } d
          { next with components := [] }) :
        { generation with components := [] }.steps dialect
            ((d :: rest).filter fun d => d.finished?.isNone)
          = .ok { after with components := [] } := by
      rw [List.filter_cons_of_pos (by rw [hd]; rfl), steps, step_of_stepsTo hstep]
      exact hnext
    cases hstep with
    | component c => exact hnext
    | plain hact => exact kept rfl (.plain hact)
    | schema hact => exact kept rfl (.schema hact)
    | parameter hact => exact kept rfl (.parameter hact)
    | route hact => exact kept rfl (.route hact)
    | webhook hhas hact => exact kept rfl (.webhook hhas hact)

/-- What is compiled obeys the law of encodings, whatever components were finished. -/
theorem obeys_encodingLaw {definitions : List Definition}
    (plain : ∀ d ∈ definitions, ∀ value, d.Brings value → value.Avoids Dialect.encodingKeys)
    (h : ofDefinitions dialect definitions = .ok generation) :
    { generation with components := [] }.Obeys (encodingLaw dialect) := by
  refine Obeys.steps (encodingLaw_lawful dialect) (fun _ => trivial) obeys_empty ?_
    (steps_without_finished h)
  intro d hd
  obtain ⟨hmem, hfinished⟩ := List.mem_filter.mp hd
  exact Definition.admits_encodingLaw (Option.isNone_iff_eq_none.mp hfinished)
    (plain d (Definition.mem_byRank.mp hmem))

end Generation

/-! ## Groups of components -/

theorem RawComponent.nodup_keys_grouped (components : List RawComponent) :
    (Entries.keys (grouped components)).Nodup := by
  induction components using List.reverseRecOn with
  | nil => exact List.nodup_nil
  | append_singleton rest c ih =>
    rw [grouped_concat]
    exact Entries.nodup_keys_insert ih _ _

/-- What stands in a group was finished for it. -/
theorem RawComponent.mem_grouped {components : List RawComponent} {group : String × Fragment}
    (h : group ∈ grouped components) {e : String × Json} (he : e ∈ group.2) :
    ∃ c ∈ components, c.group = group.1 ∧ e = (c.name, c.value) := by
  induction components using List.reverseRecOn generalizing group with
  | nil => cases h
  | append_singleton rest c ih =>
    have earlier (group : String × Fragment) (h : group ∈ grouped rest) (he : e ∈ group.2) :
        ∃ c' ∈ rest ++ [c], c'.group = group.1 ∧ e = (c'.name, c'.value) := by
      obtain ⟨c', hc', hfound⟩ := ih h he
      exact ⟨c', List.mem_append_left _ hc', hfound⟩
    rw [grouped_concat] at h
    rcases Entries.mem_insert h with rfl | h
    · rcases Entries.mem_insert he with rfl | he
      · exact ⟨c, by simp, rfl, rfl⟩
      · cases hget : Entries.get? (grouped rest) c.group with
        | none =>
          rw [hget] at he
          cases he
        | some before =>
          rw [hget] at he
          exact earlier (c.group, before) (Entries.mem_of_get? hget) he
    · exact earlier group h he

namespace Generation

theorem nodup_keys_overGroup {groups : Entries Fragment} (h : (Entries.keys groups).Nodup)
    (name : String) (compiled : Store Fragment) :
    (Entries.keys (overGroup groups name compiled)).Nodup := Entries.nodup_keys_insert h _ _

theorem mem_overGroup {groups : Entries Fragment} {name : String} {compiled : Store Fragment}
    {group : String × Fragment} (h : group ∈ overGroup groups name compiled) {e : String × Json}
    (he : e ∈ group.2) :
    (∃ before, (group.1, before) ∈ groups ∧ e ∈ before)
      ∨ ∃ fragment, e = (e.1, .object fragment) ∧ (e.1, fragment) ∈ compiled.entries := by
  rcases Entries.mem_insert h with rfl | h
  · rcases Entries.mem_extend he with he | he
    · obtain ⟨fragment, hmem, hvalue⟩ := Entries.mem_mapValues.mp he
      exact Or.inr ⟨fragment, Prod.ext rfl hvalue.symm, hmem⟩
    · cases hget : Entries.get? groups name with
      | none =>
        rw [hget] at he
        cases he
      | some before =>
        rw [hget] at he
        exact Or.inl ⟨before, Entries.mem_of_get? hget, he⟩
  · exact Or.inl ⟨group.2, h, he⟩

/-- A component that was compiled into a group: a stored schema or a registered parameter. -/
def Compiled (generation : Generation) (e : String × Json) : Prop :=
  ∃ fragment, e = (e.1, .object fragment)
    ∧ ((e.1, fragment) ∈ generation.schemas.entries
      ∨ (e.1, fragment) ∈ generation.parameters.entries)

/-- What stands in a group of components was finished for this group, or was compiled. -/
theorem mem_componentGroups (generation : Generation) {group : String} {value : Json}
    (h : (group, value) ∈ generation.componentGroups) :
    ∃ members, value = .object members
      ∧ (Json.object (generation.writeOver [])).group? group = some (.object members)
      ∧ ∀ e ∈ members, generation.Compiled e
          ∨ ∃ c ∈ generation.components, c.group = group ∧ e = (c.name, c.value) := by
  obtain ⟨members, hmem, rfl⟩ := Entries.mem_mapValues.mp h
  refine ⟨members, rfl, ?_, fun e he => ?_⟩
  · have hnodup := nodup_keys_overGroup (nodup_keys_overGroup
      (RawComponent.nodup_keys_grouped generation.components) "schemas" generation.schemas)
      "parameters" generation.parameters
    rw [group?_writeOver]
    exact congrArg (Option.map Json.object) (Entries.get?_of_mem hnodup hmem)
  · rcases mem_overGroup hmem he with ⟨before, hbefore, he⟩ | ⟨fragment, hvalue, hcompiled⟩
    · rcases mem_overGroup hbefore he with ⟨finished, hfinished, he⟩ | ⟨fragment, hvalue, hcompiled⟩
      · exact Or.inr (RawComponent.mem_grouped hfinished he)
      · exact Or.inl ⟨fragment, hvalue, Or.inl hcompiled⟩
    · exact Or.inl ⟨fragment, hvalue, Or.inr hcompiled⟩

section Foreign

variable {generation : Generation} {dialect : Dialect} {members : Fragment} {e : String × Json}

theorem Compiled.closed (h : generation.Compiled e)
    (hobeys : { generation with components := [] }.Obeys (encodingLaw dialect)) :
    (encodingLaw dialect).Closed generation.stock e.2 := by
  have lawful := encodingLaw_lawful dialect
  obtain ⟨fragment, hvalue, hmem⟩ := h
  rw [hvalue]
  refine Law.Sealed.object lawful (hmem.elim (fun hmem => ?_) fun hmem => ?_)
  · exact hobeys.schemas.sealed lawful hmem
  · exact hobeys.parameters _ hmem

variable (hobeys : { generation with components := [] }.Obeys (encodingLaw dialect))
  (hfinished : ∀ c ∈ generation.components, (encodingLaw dialect).Clean c.value)

include hobeys hfinished

/-- Under the components, a member that only the other dialect would write is a finished component:
everything else there was compiled, or has a name that is given. -/
theorem mem_components_of_foreign_group
    (hin : Json.Inside (.object members) (.object generation.componentGroups)) (he : e ∈ members)
    (hforeign : dialect.Foreign e) :
    ∃ c ∈ generation.components, e = (c.name, c.value)
      ∧ (Json.object (generation.writeOver [])).group? c.group = some (.object members) := by
  have lawful := encodingLaw_lawful dialect
  cases hin with
  | self =>
    obtain ⟨group, value⟩ := e
    obtain ⟨inner, rfl, _⟩ := generation.mem_componentGroups he
    exact absurd hforeign (Dialect.not_foreign_object _ _)
  | @member _ group hgroup hin =>
    obtain ⟨inner, hvalue, hfound, hmembers⟩ := generation.mem_componentGroups hgroup
    rw [hvalue] at hin
    cases hin with
    | self =>
      -- The group itself: only here a value stands under a name that a caller chose freely.
      rcases hmembers e he with ⟨fragment, hobject, _⟩ | ⟨c, hc, hgroup, hown⟩
      · rw [hobject] at hforeign
        exact absurd hforeign (Dialect.not_foreign_object _ _)
      · exact ⟨c, hc, hown, hgroup ▸ hfound⟩
    | @member _ component hcomponent hin =>
      rcases hmembers component hcomponent with hbuilt | ⟨c, hc, _, rfl⟩
      · exact absurd hforeign ((hbuilt.closed hobeys members hin).2 e he)
      · have hclean := (hfinished c hc).closed lawful generation.stock
        exact absurd hforeign ((hclean members hin).2 e he)

/-- So it is in the whole output, since the path items obey the law. -/
theorem mem_components_of_foreign
    (hin : Json.Inside (.object members) (.object (generation.writeOver []))) (he : e ∈ members)
    (hforeign : dialect.Foreign e) :
    ∃ c ∈ generation.components, e = (c.name, c.value)
      ∧ (Json.object (generation.writeOver [])).group? c.group = some (.object members) := by
  have lawful := encodingLaw_lawful dialect
  have hclosed {items : PathItems}
      (hitems : ∀ item ∈ items, (encodingLaw dialect).Sealed generation.stock item.2)
      (hin : Json.Inside (.object members) (.object items.toFragment)) : False :=
    (closed_pathItems lawful (fun _ => trivial) hitems members hin).2 e he hforeign
  cases hin with
  | self =>
    rcases mem_writeOver he with hnil | rfl | rfl | ⟨rfl, _⟩
    · cases hnil
    all_goals exact absurd hforeign (Dialect.not_foreign_object _ _)
  | @member _ part hpart hin =>
    rcases mem_writeOver hpart with hnil | rfl | rfl | ⟨rfl, _⟩
    · cases hnil
    · exact mem_components_of_foreign_group hobeys hfinished hin he hforeign
    · exact (hclosed hobeys.paths hin).elim
    · exact (hclosed hobeys.webhooks hin).elim

end Foreign

end Generation

/-! ## Outputs -/

/-- Where no value that a caller wrote has one of the keys under which the dialects differ, every
member of an output that only the other dialect would write is a finished component, which stands
in its group under its own name. So there is no such member anywhere in the output if no finished
component is called like one of these keys. -/
theorem encodings_of_version {version : Version} {definitions : List Definition} {output : Json}
    (plain : ∀ d ∈ definitions, ∀ value, d.Brings value → value.Avoids Dialect.encodingKeys)
    (h : generateData version definitions = .ok output) :
    (∀ members, Json.Inside (.object members) output → ∀ e ∈ members, version.dialect.Foreign e →
        ∃ c, .component c ∈ definitions ∧ e = (c.name, c.value)
          ∧ output.group? c.group = some (.object members))
      ∧ ((∀ c, .component c ∈ definitions → c.name ∉ Dialect.encodingKeys) →
          ∀ key value, output.Holds key value → ¬ version.dialect.Foreign (key, value)) := by
  obtain ⟨generation, hrun, rfl⟩ := generateData_eq_ok h
  have hobeys := Generation.obeys_encodingLaw plain hrun
  have hcomponents := (Generation.madeOf_ofDefinitions hrun).components
  have hfinished (c : RawComponent) (hc : c ∈ generation.components) :
      (encodingLaw version.dialect).Clean c.value :=
    (plain _ ((hcomponents c).mp hc) c.value rfl).clean
  have houtput : ∀ members, Json.Inside (.object members) (.object (generation.writeOver [])) →
      ∀ e ∈ members, version.dialect.Foreign e →
        ∃ c, .component c ∈ definitions ∧ e = (c.name, c.value)
          ∧ (Json.object (generation.writeOver [])).group? c.group = some (.object members) := by
    intro members hin e he hforeign
    obtain ⟨c, hc, hfound⟩ :=
      Generation.mem_components_of_foreign hobeys hfinished hin he hforeign
    exact ⟨c, (hcomponents c).mp hc, hfound⟩
  refine ⟨houtput, fun hnames key value hholds hforeign => ?_⟩
  obtain ⟨members, hin, hmem⟩ := hholds
  obtain ⟨c, hc, hown, _⟩ := houtput members hin _ hmem hforeign
  have hkey : key = c.name := congrArg Prod.fst hown
  exact hnames c hc (hkey ▸ hforeign.key_mem)

/-- A property called `nullable`, whose value may be null, is written with a flag in one dialect
and with a type in the other. -/
theorem property_called_nullable :
    let text := (Schema.ofKind (.string [])).nullable
    let definitions := [Definition.schema ((Schema.object [("nullable", text)]).named "X")]
    let whole (value : Fragment) : Json := .object [("type", .string "object"),
      ("properties", .object [("nullable", .object value)]), ("required", .strings ["nullable"])]
    (∃ output, generateData .v303 definitions = .ok output
        ∧ output.component? "schemas" "X"
          = some (whole [("type", .string "string"), ("nullable", .bool true)])
        ∧ ∀ key value, output.Holds key value → ¬ Dialect.flags.Foreign (key, value))
      ∧ ∃ output, generateData .v310 definitions = .ok output
        ∧ output.component? "schemas" "X" = some (whole [("type", .strings ["string", "null"])])
        ∧ ∀ key value, output.Holds key value → ¬ Dialect.types.Foreign (key, value) := by
  intro text definitions whole
  have hgiven : ∀ t, ((Schema.object [("nullable", text)]).named "X").Contains t →
      t.given = [] := by
    intro t ht
    rcases Schema.contains_iff.mp ht with rfl | ⟨c, hc, hct⟩
    · rfl
    · rw [List.mem_singleton.mp hc] at hct
      rcases Schema.contains_iff.mp hct with rfl | ⟨c, hc, hct⟩
      · rfl
      · rw [List.mem_singleton.mp hc] at hct
        rcases Schema.contains_iff.mp hct with rfl | ⟨c, hc, _⟩
        · rfl
        · cases hc
  have hplain : ∀ d ∈ definitions, ∀ value, d.Brings value →
      value.Avoids Dialect.encodingKeys := by
    intro d hd value hvalue
    rw [List.mem_singleton.mp hd] at hvalue
    rcases hvalue with hvalue | ⟨s, hs, t, ht, hvalue⟩
    · cases hvalue
    · rw [List.mem_singleton.mp hs] at ht
      rw [hgiven t ht] at hvalue
      cases hvalue
  have hnames : ∀ c, Definition.component c ∈ definitions → c.name ∉ Dialect.encodingKeys := by
    intro c hc
    cases List.mem_singleton.mp hc
  exact ⟨⟨_, rfl, rfl, (@encodings_of_version .v303 _ _ hplain rfl).2 hnames⟩,
    ⟨_, rfl, rfl, (@encodings_of_version .v310 _ _ hplain rfl).2 hnames⟩⟩

/-- A finished component called `nullable` looks like a flag in a document without flags, though no
object in its value has any key. -/
theorem component_called_nullable :
    let c : RawComponent := ⟨"schemas", "nullable", .bool true⟩
    (∀ value, (Definition.component c).Brings value → value.Avoids Dialect.encodingKeys)
      ∧ ∃ output, generateData .v310 [.component c] = .ok output
        ∧ output.Holds "nullable" (.bool true) := by
  intro c
  refine ⟨?_, _, rfl, ?_⟩
  · intro value hvalue
    rw [show value = .bool true from hvalue]
    exact Json.everywhere_bool true
  · refine ⟨[("nullable", .bool true)], ?_, List.mem_cons_self⟩
    refine .member (e := ("components", _)) List.mem_cons_self ?_
    exact .member (e := ("schemas", _)) List.mem_cons_self .self

end OpenApi
