/-
# OpenApi.Proofs.DefinitionTypes -- what the type of a definition decides

An entry that says what type of definition it is can be read as that type and as no other. Reading it
so may fail, for a mistake in its payload, and then the entry is read once more: as a bare schema node,
which knows no `type` and skips it. So the type of an entry decides what it is only where the payload
is in order, and a node of a schema that happens to stand beside the type is taken where it is not.

The node reader does not see `type` at all: not as a key of the node, not as a key of any kind of
schema, and a tag is too shallow to count for the depth of the tree.
-/
import OpenApi.Decode.Definition
import OpenApi.Proofs.Records

namespace OpenApi

open Json (Written)

/-- The type that a definition is written with. A bare schema node has none. -/
def Definition.typeName : Definition → Option String
  | .plain _ => none
  | .schema _ => some "schema"
  | .parameter _ => some "parameter"
  | .component _ => some "component"
  | .route _ => some "route"
  | .webhook _ => some "webhook"

namespace Json.Written

theorem depthOfMembers_filter {members : List (String × Written)} {p : String × Written → Bool}
    (h : ∀ f ∈ members, p f = false → f.2.depth = 0) :
    depthOfMembers (members.filter p) = depthOfMembers members := by
  induction members with
  | nil => rfl
  | cons f rest ih =>
    have hrest := ih fun g hg => h g (List.mem_cons_of_mem _ hg)
    obtain ⟨key, w⟩ := f
    rw [List.filter_cons, depthOfMembers]
    cases hp : p (key, w) with
    | true => rw [if_pos rfl, depthOfMembers, hrest]
    | false =>
      have hzero : w.depth = 0 := h _ List.mem_cons_self hp
      rw [if_neg Bool.false_ne_true, hrest, hzero, Nat.zero_max]

theorem isUsable_of_mem {members : List (String × Written)}
    (h : (Written.object members).isUsable = true) : ∀ f ∈ members, f.2.isUsable = true := by
  obtain ⟨v, hv⟩ := Option.isSome_iff_exists.mp h
  obtain ⟨values, hvalues, -⟩ := Option.map_eq_some_iff.mp hv
  exact isSome_of_memberValues? hvalues

end Json.Written

namespace Decode

/-! ## Keys that a reader does not know -/

section Unknown

variable {α : Type} {fields : Fields} {known : List String} {key : String}

theorem required?_others (h : key ∉ known) (decode : Written → Option α) :
    required? (others fields known) key decode = required? fields key decode := by
  unfold required?
  rw [single?_others h]

theorem optional?_others (h : key ∉ known) (decode : Written → Option α) :
    optional? (others fields known) key decode = optional? fields key decode := by
  unfold optional?
  rw [single?_others h]

theorem defaulted?_others (h : key ∉ known) (default : α) (decode : Written → Option α) :
    defaulted? (others fields known) key default decode = defaulted? fields key default decode := by
  unfold defaulted?
  rw [single?_others h]

end Unknown

/-- No kind of schema knows a `type`. -/
theorem kind?_others (below : Written → Option Schema) (name : String) (fields : Fields) :
    kind? below name (others fields ["type"]) = kind? below name fields := by
  unfold kind?
  split <;>
    simp (disch := decide) only [required?_others, optional?_others, defaulted?_others]

/-- Neither does a node. -/
theorem nodeWith?_others (node : Nothing → Written → Option Schema) (nothing : Nothing)
    {members : Fields} (usable : ∀ f ∈ members, f.2.isUsable = true) :
    nodeWith? node nothing (.object (others members ["type"]))
      = nodeWith? node nothing (.object members) := by
  have hall (fields : Fields) (h : ∀ f ∈ fields, f ∈ members) :
      (fields.all fun f => f.2.isUsable) = true :=
    List.all_eq_true.mpr fun f hf => usable f (h f hf)
  have hown : ∀ f ∈ others members nodeKeys, f ∈ members := fun f hf => (List.mem_filter.mp hf).1
  have hleft : ∀ f ∈ others (others members nodeKeys) ["type"], f ∈ members :=
    fun f hf => hown f (List.mem_filter.mp hf).1
  simp only [nodeWith?, object?, Option.bind_eq_bind, Option.bind_some]
  rw [others_comm members ["type"] nodeKeys, hall _ hown, hall _ hleft,
    others_comm _ ["type"] ["kind"]]
  simp (disch := decide) only [required?_others, optional?_others, kind?_others]

/-- A shallow `type` is skipped where a schema is read. -/
theorem schema?_others (nothing : Nothing) {members : Fields}
    (usable : ∀ f ∈ members, f.2.isUsable = true)
    (shallow : ∀ f ∈ members, f.1 = "type" → f.2.depth = 0) :
    schema? nothing (.object (others members ["type"])) = schema? nothing (.object members) := by
  have hdepth : (Written.object (others members ["type"])).depth = (Written.object members).depth := by
    rw [Written.depth, Written.depth, others, Written.depthOfMembers_filter]
    intro f hf hp
    exact shallow f hf (by simpa using hp)
  unfold schema?
  rw [hdepth]
  cases (Written.object members).depth with
  | zero => rfl
  | succ depth => exact nodeWith?_others (schemaWithin? depth) nothing usable

/-! ## Types -/

/-- The known type of an entry. -/
def type? (members : Fields) : Option String := required? members "type" (tag? definitionTypes)

/-- An entry that can be read by its type is a definition of that type. -/
theorem typeName_of_typedDefinition? {members : Fields} {definition : Definition}
    (h : typedDefinition? (.object members) = some definition) :
    ∃ name, type? members = some name ∧ definition.typeName = some name := by
  unfold typedDefinition? at h
  obtain ⟨⟨name, w⟩, hchoice, h⟩ := Option.bind_eq_some_iff.mp h
  obtain ⟨name', htype, hname⟩ := Option.bind_eq_some_iff.mp hchoice
  obtain ⟨rfl, -⟩ := Prod.mk.inj (Option.some.inj hname)
  refine ⟨name', htype, ?_⟩
  dsimp only at h
  split at h <;>
    first
    | obtain ⟨payload, -, hpayload⟩ := Option.bind_eq_some_iff.mp h
      cases hpayload
      rfl
    | cases h

/-- A kind is read by its own name. -/
theorem name_of_kind? {below : Written → Option Schema} {name : String} {fields : Fields}
    {kind : Schema.Kind Schema} (h : kind? below name fields = some kind) : kind.name = name := by
  unfold kind? at h
  simp only [Option.bind_eq_bind, Option.pure_def] at h
  split at h <;> simp only [Option.bind_eq_some_iff, Option.some.injEq, reduceCtorEq] at h
  -- What is left says what was read under each key, and last which kind was made of it.
  all_goals
    repeat obtain ⟨_, -, h⟩ := h
    rfl

/-- What is read as a schema names its kind. -/
theorem kind_of_schema? {nothing : Nothing} {members : Fields} {s : Schema}
    (h : schema? nothing (.object members) = some s) :
    required? members "kind" (tag? kindNames) = some s.kind.name := by
  unfold schema? at h
  cases hdepth : (Written.object members).depth with
  | zero =>
    rw [hdepth] at h
    cases h
  | succ depth =>
    rw [hdepth] at h
    unfold schemaWithin? nodeWith? at h
    obtain ⟨fields, hfields, h⟩ := Option.bind_eq_some_iff.mp h
    obtain rfl := Option.some.inj hfields
    obtain ⟨description, -, h⟩ := Option.bind_eq_some_iff.mp h
    obtain ⟨label, -, h⟩ := Option.bind_eq_some_iff.mp h
    split at h
    · obtain ⟨name, hname, h⟩ := Option.bind_eq_some_iff.mp h
      obtain ⟨kind, hkind, h⟩ := Option.bind_eq_some_iff.mp h
      obtain rfl := Option.some.inj h
      rw [required?_others (by decide)] at hname
      rw [hname]
      exact congrArg some (name_of_kind? hkind).symm
    · cases h

theorem depth_of_tag? {names : List String} {w : Written} {name : String}
    (h : tag? names w = some name) : w.depth = 0 := by
  cases w with
  | array items => cases h
  | object members => cases h
  | _ => rfl

/-- Beside a known type the other keys are read as if there were no type. -/
theorem schema?_beside_type (nothing : Nothing) {members : Fields} {name : String}
    (usable : (Written.object members).isUsable = true) (h : type? members = some name) :
    schema? nothing (.object (others members ["type"])) = schema? nothing (.object members) := by
  obtain ⟨w, hw, htag⟩ := required?_eq_some h
  refine schema?_others nothing (Written.isUsable_of_mem usable) fun f hf hkey => ?_
  have hmem : f ∈ members.filter fun g => g.1 == "type" :=
    List.mem_filter.mpr ⟨hf, beq_iff_eq.mpr hkey⟩
  rw [single?_eq_some_some hw] at hmem
  obtain rfl := List.mem_singleton.mp hmem
  exact depth_of_tag? htag

theorem definition?_eq_some_iff (w : Written) (definition : Definition) :
    definition? w = some definition ↔ w.isUsable = true
      ∧ (typedDefinition? w = some definition
        ∨ typedDefinition? w = none ∧ ∃ s, schema? .null w = some s ∧ definition = .plain s) := by
  unfold definition?
  by_cases husable : w.isUsable = true
  · rw [if_pos husable]
    cases htyped : typedDefinition? w with
    | some typed => simp [husable]
    | none =>
      constructor
      · intro h
        obtain ⟨s, hs, hplain⟩ := Option.map_eq_some_iff.mp h
        exact ⟨husable, Or.inr ⟨rfl, s, hs, hplain.symm⟩⟩
      · rintro ⟨-, h | ⟨-, s, hs, rfl⟩⟩
        · cases h
        · exact Option.map_eq_some_iff.mpr ⟨s, hs, rfl⟩
  · simp [husable]

/-! ## What an entry is read as -/

/-- What an entry is read as. With a known type it is read by that type, as a definition of that type;
or, exactly where its payload cannot be read so and what stands beside the type can be read as a schema
node, as that bare node. Without a known type it is read as a bare node. A bare node names its kind, so
an entry with a known type and no `kind` beside it is read by its type or not at all. -/
theorem definition_read_by_type (members : Fields) (definition : Definition) :
    (∀ name, type? members = some name →
        (definition? (.object members) = some definition ↔ (Written.object members).isUsable = true
          ∧ (typedDefinition? (.object members) = some definition ∧ definition.typeName = some name
            ∨ typedDefinition? (.object members) = none
              ∧ ∃ s, schema? .null (.object (others members ["type"])) = some s
                ∧ definition = .plain s)))
      ∧ (type? members = none →
        (definition? (.object members) = some definition ↔ (Written.object members).isUsable = true
          ∧ ∃ s, schema? .null (.object members) = some s ∧ definition = .plain s))
      ∧ ∀ s, definition? (.object members) = some (.plain s) →
          required? members "kind" (tag? kindNames) = some s.kind.name := by
  refine ⟨fun name hname => ?_, fun hnone => ?_, fun s hs => ?_⟩
  · rw [definition?_eq_some_iff]
    refine and_congr_right fun husable => or_congr ⟨fun htyped => ⟨htyped, ?_⟩, And.left⟩ ?_
    · obtain ⟨name', hname', htypeName⟩ := typeName_of_typedDefinition? htyped
      rw [htypeName, ← hname', hname]
    · rw [schema?_beside_type _ husable hname]
  · have htyped : typedDefinition? (.object members) = none := by
      refine Option.eq_none_iff_forall_ne_some.mpr fun typed htyped => ?_
      obtain ⟨name, hname, -⟩ := typeName_of_typedDefinition? htyped
      cases hnone.symm.trans hname
    rw [definition?_eq_some_iff, htyped]
    simp
  · obtain ⟨-, htyped | ⟨-, s', hs', hplain⟩⟩ := (definition?_eq_some_iff _ _).mp hs
    · obtain ⟨name, -, hname⟩ := typeName_of_typedDefinition? htyped
      cases hname
    · obtain rfl := Definition.plain.inj hplain
      exact kind_of_schema? hs'

/-- A parameter without its payload, with the kind of a schema beside its type, is read as a bare
node. -/
theorem parameter_without_payload_read_as_plain :
    definition? (.object [("type", .string "parameter"), ("kind", .string "string")])
      = some (.plain (.ofKind (.string []))) := by
  refine ((definition_read_by_type _ _).1 "parameter" rfl).mpr ⟨rfl, Or.inr ⟨rfl, _, ?_, rfl⟩⟩
  rfl

end Decode

end OpenApi
