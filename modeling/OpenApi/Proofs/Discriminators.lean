/-
# OpenApi.Proofs.Discriminators -- which options a discriminator leads to

A discriminator maps the values of one field to the options of a union. Below an option are one or more
objects, `Schema.variants`: the option itself, or the objects of the options of the union that it is.
What the field of one of these objects has to say is `Discriminator.telling`, and what an option has to
say is all that its objects say.

The options are written into one mapping in order. So a value leads to the last option that admits it,
and an option whose values are all admitted further on is not led to (`Schema.last_option_mapped`).

An object that is an option itself must tell its texts. The objects of a nested union are only asked for
all their values together, of which there must be one: an object without the field is passed over, and a
literal that is not a string counts with its text (`Schema.discriminator_checked`).
-/
import OpenApi.Proofs.Defaults
import OpenApi.Proofs.Wrapping

namespace OpenApi

/-! ## Objects below an option -/

namespace Schema

theorem eq_node_of_kind {s : Schema} {kind : Kind Schema} (h : s.kind = kind) :
    s = node kind s.description s.label := by
  cases s
  cases h
  rfl

/-- The field of an object. -/
def field? (s : Schema) (key : String) : Option Schema :=
  match s.kind with
  | .object shape _ _ => Entries.get? shape key
  | _ => none

mutual

/-- The objects that a schema stands for: itself if it is one under its wrappers, and those of its
options if it is a discriminated union. -/
def variants : Schema → List Schema
  | node (.optional inner) _ _ => variants inner
  | node (.nullable inner) _ _ => variants inner
  | node (.branded inner _) _ _ => variants inner
  | node (.default inner _) _ _ => variants inner
  | node (.readonly inner) _ _ => variants inner
  | node (.effects inner) _ _ => variants inner
  | node (.discriminatedUnion _ options) _ _ => variantsAll options
  | node (.object shape treatment catchall) description label =>
    [node (.object shape treatment catchall) description label]
  | _ => []

/-- The objects that some schemas stand for. -/
def variantsAll : List Schema → List Schema
  | [] => []
  | s :: rest => variants s ++ variantsAll rest

end

theorem variantsAll_eq (options : List Schema) : variantsAll options = options.flatMap variants := by
  induction options with
  | nil => rfl
  | cons first rest ih => rw [variantsAll, ih, List.flatMap_cons]

theorem variants_core (s : Schema) : s.core.variants = s.variants := by
  induction s using induction with
  | step s ih =>
    cases hwrapped : s.kind.wrapped? with
    | none => rw [core_of_not_wrapped hwrapped]
    | some inner =>
      rw [core_of_wrapped? hwrapped,
        ih inner (List.mem_append_left _ (Kind.mem_schemas_of_wrapped? hwrapped))]
      obtain ⟨kind, description, label⟩ := s
      cases kind <;> cases hwrapped <;> rw [variants]

theorem variants_of_object {s : Schema} (h : s.core.isObject = true) : s.variants = [s.core] := by
  rw [← variants_core]
  generalize s.core = t at h
  obtain ⟨kind, description, label⟩ := t
  cases kind <;> first | rfl | cases h

end Schema

/-- The discriminator that a configuration is not supported for. -/
def Unsupported.discriminator? : Unsupported → Option String
  | discriminatorMissing name => some name
  | discriminatorAmbiguous name _ => some name
  | _ => none

namespace Discriminator

/-! ## What a field tells -/

/-- What a field has to say about a discriminator: the texts that it admits, a literal that is not a
string, or nothing. -/
inductive Telling where
  | texts (admitted : List String)
  | spelled (value : Json)
  | nothing

/-- The texts that are admitted. -/
def Telling.admitted : Telling → List String
  | texts admitted => admitted
  | _ => []

/-- The texts that are taken for values. -/
def Telling.values : Telling → List String
  | texts admitted => admitted
  | spelled value => [value.compact]
  | nothing => []

/-- Whether nothing but texts is told. -/
def Telling.isWorded : Telling → Bool
  | spelled _ => false
  | _ => true

/-- What a field under its wrappers tells. -/
def telling (field : Option Schema) : Telling :=
  match fieldKind field with
  | some (.literal (.string text)) => .texts [text]
  | some (.literal value) => .spelled value
  | some (.enumeration values) => .texts values
  | _ => .nothing

theorem values_telling (field : Option Schema) : (telling field).values = fieldValues field := by
  unfold telling fieldValues
  match fieldKind field with
  | none => rfl
  | some kind =>
    cases kind with
    | literal value => cases value <;> rfl
    | _ => rfl

/-- The texts that the field `name` admits in the objects that a schema stands for. -/
def admitted (name : String) (s : Schema) : List String :=
  s.variants.flatMap fun o => (telling (o.field? name)).admitted

theorem valuesInAll_eq (name : String) (options : List Schema) :
    valuesInAll name options = options.flatMap (valuesIn name) := by
  induction options with
  | nil => rfl
  | cons first rest ih => rw [valuesInAll, ih, List.flatMap_cons]

/-- The values of a schema are what the objects tell that it stands for. -/
theorem valuesIn_eq (name : String) (s : Schema) :
    valuesIn name s = s.variants.flatMap fun o => (telling (o.field? name)).values := by
  induction s using Schema.induction with
  | step s ih =>
    obtain ⟨kind, description, label⟩ := s
    have below (inner : Schema) (h : inner ∈ kind.schemas) :
        valuesIn name inner = inner.variants.flatMap fun o => (telling (o.field? name)).values :=
      ih inner (List.mem_append_left _ h)
    cases kind with
    | optional inner | nullable inner | branded inner _ | default inner _ | readonly inner
    | effects inner =>
      rw [valuesIn, Schema.variants]
      exact below inner (List.mem_singleton_self inner)
    | discriminatedUnion discriminator options =>
      rw [valuesIn, Schema.variants, valuesInAll_eq, Schema.variantsAll_eq, List.flatMap_assoc]
      exact List.flatMap_congr below
    | object shape treatment catchall =>
      rw [valuesIn, Schema.variants, List.flatMap_singleton, values_telling]
      rfl
    | _ => rfl

theorem mem_valuesIn_iff {name : String} {s : Schema} {value : String} :
    value ∈ valuesIn name s ↔ ∃ o ∈ s.variants, value ∈ (telling (o.field? name)).values := by
  rw [valuesIn_eq, List.mem_flatMap]

/-- Where no literal counts with its text that is not a string, the values are the texts that are
admitted. -/
theorem valuesIn_eq_admitted {name : String} {s : Schema}
    (worded : ∀ o ∈ s.variants, (telling (o.field? name)).isWorded = true) :
    valuesIn name s = admitted name s := by
  rw [valuesIn_eq]
  refine List.flatMap_congr fun o ho => ?_
  have htold := worded o ho
  generalize telling (o.field? name) = told at htold
  cases told with
  | spelled value => cases htold
  | _ => rfl

/-! ## Options that are accepted -/

/-- An option that can be entered in a mapping: an object whose field tells its texts, or a discriminated
union whose objects tell a single text between them. -/
inductive Accepted (name : String) (option : Schema) : Prop
  | object {texts : List String} : option.core.isObject = true →
      telling (option.core.field? name) = .texts texts → Accepted name option
  | union {inner : String} {options : List Schema} {value : String} :
      option.core.kind = .discriminatedUnion inner options →
      (∀ v, v ∈ valuesIn name option ↔ v = value) → Accepted name option

theorem eraseDups_eq_singleton_iff {texts : List String} {text : String} :
    texts.eraseDups = [text] ↔ ∀ t, t ∈ texts ↔ t = text := by
  constructor
  · intro h t
    rw [← List.mem_eraseDups, h, List.mem_singleton]
  · intro h
    cases texts with
    | nil => exact absurd ((h text).mpr rfl) List.not_mem_nil
    | cons first rest =>
      have hfirst : first = text := (h first).mp List.mem_cons_self
      -- Every text is the first one, so leaving the first one out leaves nothing.
      have hrest : rest.filter (fun t => !t == first) = [] := by
        refine List.filter_eq_nil_iff.mpr fun t ht => ?_
        rw [hfirst, (h t).mp (List.mem_cons_of_mem _ ht)]
        simp
      rw [List.eraseDups_cons, hrest, hfirst, List.eraseDups_nil]

section Options

variable {name inner : String} {option : Schema} {options : List Schema}

theorem accepted_object_iff (h : option.core.isObject = true) :
    Accepted name option ↔ ∃ texts, telling (option.core.field? name) = .texts texts := by
  constructor
  · rintro (⟨_, htold⟩ | ⟨hkind, _⟩)
    · exact ⟨_, htold⟩
    · simp [Schema.isObject, hkind] at h
  · rintro ⟨texts, htold⟩
    exact .object h htold

theorem accepted_union_iff (h : option.core.kind = .discriminatedUnion inner options) :
    Accepted name option ↔ ∃ value, ∀ v, v ∈ valuesIn name option ↔ v = value := by
  constructor
  · rintro (⟨hobject, _⟩ | ⟨_, hvalue⟩)
    · simp [Schema.isObject, h] at hobject
    · exact ⟨_, hvalue⟩
  · rintro ⟨value, hvalue⟩
    exact .union h hvalue

theorem optionValues_of_object (h : option.core.isObject = true) :
    optionValues name option = match telling (option.core.field? name) with
      | .texts texts => .ok texts
      | _ => .error (.unsupported (.discriminatorMissing name)) := by
  unfold optionValues
  generalize option.core = t at h
  obtain ⟨kind, description, label⟩ := t
  cases kind with
  | object shape treatment catchall =>
    unfold telling
    dsimp only [Schema.kind, Schema.field?]
    match fieldKind (Entries.get? shape name) with
    | none => rfl
    | some kind =>
      cases kind with
      | literal value => cases value <;> rfl
      | _ => rfl
  | _ => cases h

theorem optionValues_of_union (h : option.core.kind = .discriminatedUnion inner options) :
    optionValues name option = match values name option with
      | [value] => .ok [value]
      | several => .error (.unsupported (.discriminatorAmbiguous name several)) := by
  unfold optionValues
  generalize option.core.kind = kind at h
  subst h
  rfl

theorem optionValues_of_other (hobject : option.core.isObject = false)
    (hunion : ∀ inner options, option.core.kind ≠ .discriminatedUnion inner options) :
    optionValues name option = .error (.unsupported (.discriminatorMissing name)) := by
  unfold optionValues
  generalize option.core = t at hobject hunion
  obtain ⟨kind, description, label⟩ := t
  cases kind with
  | object shape treatment catchall => cases hobject
  | discriminatedUnion inner options => exact absurd rfl (hunion inner options)
  | _ => rfl

/-- An option that is accepted is entered under its values. -/
theorem Accepted.exists_optionValues (h : Accepted name option) :
    ∃ entered, optionValues name option = .ok entered ∧ ∀ v, v ∈ entered ↔ v ∈ valuesIn name option := by
  cases h with
  | @object texts hobject htold =>
    refine ⟨texts, by rw [optionValues_of_object hobject, htold], fun v => ?_⟩
    rw [valuesIn_eq, Schema.variants_of_object hobject, List.flatMap_singleton, htold, Telling.values]
  | @union inner options value hkind hvalue =>
    have hvalues : values name option = [value] := eraseDups_eq_singleton_iff.mpr hvalue
    refine ⟨[value], by rw [optionValues_of_union hkind, hvalues], fun v => ?_⟩
    rw [List.mem_singleton, hvalue]

/-- An option that is not accepted is a configuration that is not supported. -/
theorem optionValues_of_not_accepted (h : ¬ Accepted name option) :
    ∃ cause, optionValues name option = .error (.unsupported cause)
      ∧ cause.discriminator? = some name := by
  cases hobject : option.core.isObject with
  | true =>
    rw [accepted_object_iff hobject] at h
    rw [optionValues_of_object hobject]
    split
    · exact absurd ⟨_, ‹_›⟩ h
    · exact ⟨_, rfl, rfl⟩
  | false =>
    by_cases hunion : ∃ inner options, option.core.kind = .discriminatedUnion inner options
    · obtain ⟨inner, options, hkind⟩ := hunion
      rw [accepted_union_iff hkind] at h
      rw [optionValues_of_union hkind]
      split
      · rename_i hvalues
        exact absurd ⟨_, eraseDups_eq_singleton_iff.mp hvalues⟩ h
      · exact ⟨_, rfl, rfl⟩
    · exact ⟨_, optionValues_of_other hobject fun _ _ hkind => hunion ⟨_, _, hkind⟩, rfl⟩

end Options

/-! ## The mapping -/

theorem get?_extend_map (mapped : Fragment) (values : List String) (target : Json) (value : String) :
    Entries.get? (Entries.extend mapped (values.map fun v => (v, target))) value
      = if value ∈ values then some target else Entries.get? mapped value := by
  induction values generalizing mapped with
  | nil => rfl
  | cons first rest ih =>
    show Entries.get? (Entries.extend (Entries.insert mapped first target) _) value = _
    rw [ih, Entries.get?_insert]
    by_cases hrest : value ∈ rest
    · rw [if_pos hrest, if_pos (List.mem_cons_of_mem _ hrest)]
    · simp only [hrest, if_false, List.mem_cons, or_false]

section Mapping

variable {name : String} {labelled : List (String × Schema)} {mapped entries : Fragment}

/-- A value is mapped to the last option that has it, or else to what it was mapped to before. -/
theorem get?_mapping (h : mapping name mapped labelled = .ok entries) (value : String) :
    Entries.get? entries value
      = ((labelled.filter fun l => value ∈ valuesIn name l.2).getLast?.map fun l =>
          Json.string (Reference.schemaPath l.1)).or (Entries.get? mapped value) := by
  induction labelled generalizing mapped with
  | nil =>
    cases h
    rfl
  | cons first rest ih =>
    obtain ⟨refId, option⟩ := first
    rw [mapping] at h
    split at h
    · cases h
    · rename_i entered hentered
      have haccepted : Accepted name option := by
        by_contra hnot
        obtain ⟨cause, herror, _⟩ := optionValues_of_not_accepted hnot
        cases hentered.symm.trans herror
      obtain ⟨_, hvalues, hmem⟩ := haccepted.exists_optionValues
      cases hentered.symm.trans hvalues
      -- The first option is written over what was mapped, and the rest over the first option.
      rw [ih h, get?_extend_map, List.filter_cons]
      simp only [hmem, decide_eq_true_eq]
      by_cases hvalue : value ∈ valuesIn name option
      · rw [if_pos hvalue, if_pos hvalue, List.getLast?_cons]
        cases (rest.filter fun l => value ∈ valuesIn name l.2).getLast? <;> rfl
      · rw [if_neg hvalue, if_neg hvalue]

theorem exists_mapping (h : ∀ l ∈ labelled, Accepted name l.2) :
    ∃ entries, mapping name mapped labelled = .ok entries := by
  induction labelled generalizing mapped with
  | nil => exact ⟨mapped, rfl⟩
  | cons first rest ih =>
    obtain ⟨entered, hentered, _⟩ := (h first List.mem_cons_self).exists_optionValues
    rw [mapping, hentered]
    exact ih fun l hl => h l (List.mem_cons_of_mem _ hl)

theorem mapping_of_not_accepted {l : String × Schema} (hl : l ∈ labelled) (h : ¬ Accepted name l.2) :
    ∃ cause, mapping name mapped labelled = .error (.unsupported cause)
      ∧ cause.discriminator? = some name := by
  induction labelled generalizing mapped with
  | nil => cases hl
  | cons first rest ih =>
    by_cases hfirst : Accepted name first.2
    · obtain ⟨entered, hentered, _⟩ := hfirst.exists_optionValues
      rw [mapping, hentered]
      refine ih ((List.mem_cons.mp hl).resolve_left ?_)
      rintro rfl
      exact h hfirst
    · obtain ⟨cause, herror, hcause⟩ := optionValues_of_not_accepted hfirst
      rw [mapping, herror]
      exact ⟨cause, rfl, hcause⟩

end Mapping

section Object

variable {name : String} {options : List Schema}

/-- Options that all have an identifier are listed with it. -/
theorem exists_labelled (named : ∀ option ∈ options, option.refId?.isSome = true) :
    ∃ labelled, options.mapM (fun option => option.refId?.map (·, option)) = some labelled
      ∧ labelled.map (·.2) = options := by
  induction options with
  | nil => exact ⟨[], rfl, rfl⟩
  | cons first rest ih =>
    obtain ⟨refId, hrefId⟩ := Option.isSome_iff_exists.mp (named first List.mem_cons_self)
    obtain ⟨labelled, hlabelled, hrest⟩ := ih fun option h => named option (List.mem_cons_of_mem _ h)
    refine ⟨(refId, first) :: labelled, ?_, by rw [List.map_cons, hrest]⟩
    rw [List.mapM_cons, hrefId, hlabelled]
    rfl

/-- A discriminator as it is written. -/
def written (name : String) (entries : Fragment) : Json :=
  .object [("propertyName", .string name), ("mapping", .object entries)]

/-- The reference to an option that has an identifier. -/
def target? (option : Schema) : Option Json :=
  option.refId?.map fun refId => .string (Reference.schemaPath refId)

/-- A mapping that sends every value to the last option that has it. -/
structure SendsToLast (name : String) (options : List Schema) (entries : Fragment) : Prop where
  distinct : (Entries.keys entries).Nodup
  last : ∀ value, Entries.get? entries value
    = (options.filter fun option => value ∈ valuesIn name option).getLast?.bind target?

theorem object?_of_named (name : String) (named : ∀ option ∈ options, option.refId?.isSome = true) :
    ∃ labelled, labelled.map (·.2) = options ∧ (∀ l ∈ labelled, l.2.refId? = some l.1)
      ∧ object? name options
        = (mapping name [] labelled).map fun entries => some (written name entries) := by
  obtain ⟨labelled, hlabelled, hoptions⟩ := exists_labelled named
  refine ⟨labelled, hoptions, fun l hl => (mem_labelled hlabelled hl).2, ?_⟩
  rw [object?, hlabelled]
  rfl

/-- Options that are all named and accepted have a discriminator. -/
theorem object?_of_accepted (named : ∀ option ∈ options, option.refId?.isSome = true)
    (accepted : ∀ option ∈ options, Accepted name option) :
    ∃ entries, object? name options = .ok (some (written name entries))
      ∧ SendsToLast name options entries := by
  obtain ⟨labelled, rfl, hrefId, hobject⟩ := object?_of_named name named
  obtain ⟨entries, hentries⟩ : ∃ entries, mapping name [] labelled = .ok entries :=
    exists_mapping fun l hl => accepted l.2 (List.mem_map_of_mem hl)
  refine ⟨entries, by rw [hobject, hentries]; rfl,
    ⟨nodup_keys_mapping hentries List.nodup_nil, fun value => ?_⟩⟩
  rw [get?_mapping hentries, List.filter_map, List.getLast?_map]
  show _ = ((labelled.filter fun l => value ∈ valuesIn name l.2).getLast?.map (·.2)).bind target?
  cases hlast : (labelled.filter fun l => value ∈ valuesIn name l.2).getLast? with
  | none => rfl
  | some l =>
    have hl : l ∈ labelled := (List.mem_filter.mp (List.mem_of_getLast? hlast)).1
    rw [Option.map_some, Option.map_some, Option.bind_some, target?, hrefId l hl]
    rfl

theorem object?_of_not_accepted (named : ∀ option ∈ options, option.refId?.isSome = true)
    {option : Schema} (hoption : option ∈ options) (h : ¬ Accepted name option) :
    ∃ cause, object? name options = .error (.unsupported cause)
      ∧ cause.discriminator? = some name := by
  obtain ⟨labelled, rfl, _, hobject⟩ := object?_of_named name named
  obtain ⟨l, hl, rfl⟩ := List.mem_map.mp hoption
  obtain ⟨cause, herror, hcause⟩ : ∃ cause, mapping name [] labelled = .error (.unsupported cause)
      ∧ cause.discriminator? = some name := mapping_of_not_accepted hl h
  exact ⟨cause, by rw [hobject, herror]; rfl, hcause⟩

end Object

end Discriminator

/-! ## Unions as they are written -/

namespace Shape

variable {dialect : Dialect} {options : List Site} {compiled : List Json} {store after : Store Fragment}
  {discriminator : Except Problem (Option Json)} {nullable : Bool} {default : Option Json}

/-- Once its options are compiled, exclusive alternatives ask for nothing but the discriminator, and where
null is accepted for nothing. -/
theorem compile_oneOf (h : compileAll dialect options store = .ok (compiled, after)) :
    (oneOf options discriminator).compile dialect nullable default store
      = (if nullable then .ok none else discriminator).map fun telling =>
          (Fragment.withDefault (oneOfFragment dialect nullable compiled telling) default, after) := by
  rw [compile, Compile.bind_apply_ok h]
  cases nullable with
  | true => rfl
  | false => cases discriminator <;> rfl

theorem exists_compileAll_of_oneOf {body : Fragment}
    (h : (oneOf options discriminator).compile dialect nullable default store = .ok (body, after)) :
    ∃ compiled telling, compileAll dialect options store = .ok (compiled, after)
      ∧ body = Fragment.withDefault (oneOfFragment dialect nullable compiled telling) default := by
  cases hcompiled : compileAll dialect options store with
  | error problem =>
    rw [compile, Compile.bind_apply_error hcompiled] at h
    cases h
  | ok result =>
    obtain ⟨compiled, mid⟩ := result
    rw [compile_oneOf hcompiled] at h
    cases htelling : (if nullable = true then .ok none else discriminator : Except Problem _) with
    | error problem =>
      rw [htelling] at h
      cases h
    | ok telling =>
      rw [htelling] at h
      cases h
      exact ⟨compiled, telling, rfl, rfl⟩

theorem get?_discriminator (telling : Option Json) :
    Entries.get? (Fragment.withDefault (oneOfFragment dialect false compiled telling) default)
      "discriminator" = telling := by
  rw [Fragment.get?_withDefault_of_ne default (by decide)]
  cases telling <;> rfl

end Shape

namespace Schema

theorem shape_of_union {s : Schema} {name : String} {options : List Schema}
    (h : s.core.kind = .discriminatedUnion name options) :
    s.shape false = .oneOf (sites options) (Discriminator.object? name options) := by
  rw [← shape_core, eq_node_of_kind h, shape]

section Union

variable {s : Schema} {name : String} {options : List Schema} {dialect : Dialect}
  {default : Option Json} {store after : Store Fragment} {body : Fragment} {compiled : List Json}
  (union : s.core.kind = .discriminatedUnion name options) (strict : s.isNullable = false)
  (named : ∀ option ∈ options, option.refId?.isSome = true)

include union strict named

theorem compile_of_accepted
    (hcompiled : Shape.compileAll dialect (sites options) store = .ok (compiled, after))
    (accepted : ∀ option ∈ options, Discriminator.Accepted name option) :
    ∃ body entries, (s.shape false).compile dialect s.isNullable default store = .ok (body, after)
      ∧ Entries.get? body "discriminator" = some (Discriminator.written name entries)
      ∧ Discriminator.SendsToLast name options entries := by
  obtain ⟨entries, hobject, hsends⟩ := Discriminator.object?_of_accepted named accepted
  have hrun : (s.shape false).compile dialect s.isNullable default store
      = .ok (Fragment.withDefault (Shape.oneOfFragment dialect false compiled
          (some (Discriminator.written name entries))) default, after) := by
    rw [shape_of_union union, Shape.compile_oneOf hcompiled, strict, hobject]
    rfl
  exact ⟨_, entries, hrun, Shape.get?_discriminator _, hsends⟩

theorem compile_of_not_accepted
    (hcompiled : Shape.compileAll dialect (sites options) store = .ok (compiled, after))
    {option : Schema} (hoption : option ∈ options) (refused : ¬ Discriminator.Accepted name option) :
    ∃ cause, (s.shape false).compile dialect s.isNullable default store = .error (.unsupported cause)
      ∧ cause.discriminator? = some name := by
  obtain ⟨cause, herror, hcause⟩ := Discriminator.object?_of_not_accepted named hoption refused
  refine ⟨cause, ?_, hcause⟩
  rw [shape_of_union union, Shape.compile_oneOf hcompiled, strict, herror]
  rfl

/-- A union with named options that is compiled had its options compiled before, and all accepted. -/
theorem accepted_of_compile
    (h : (s.shape false).compile dialect s.isNullable default store = .ok (body, after)) :
    (∃ compiled, Shape.compileAll dialect (sites options) store = .ok (compiled, after))
      ∧ (∀ option ∈ options, Discriminator.Accepted name option)
      ∧ ∃ entries, Entries.get? body "discriminator" = some (Discriminator.written name entries)
        ∧ Discriminator.SendsToLast name options entries := by
  obtain ⟨compiled, _, hcompiled, _⟩ := Shape.exists_compileAll_of_oneOf (shape_of_union union ▸ h)
  have accepted (option : Schema) (hoption : option ∈ options) : Discriminator.Accepted name option := by
    by_contra refused
    obtain ⟨cause, herror, _⟩ := compile_of_not_accepted union strict named hcompiled hoption refused
    cases h.symm.trans herror
  obtain ⟨body', entries, hbody, hsaid⟩ := compile_of_accepted union strict named hcompiled accepted
  cases h.symm.trans hbody
  exact ⟨⟨compiled, hcompiled⟩, accepted, entries, hsaid⟩

end Union

end Schema

/-! ## The options that values lead to -/

namespace Discriminator

variable {name value : String} {options : List Schema} {option : Schema}

/-- The last option that admits a value. -/
def lastAdmitting (name : String) (options : List Schema) (value : String) : Option Schema :=
  (options.filter fun option => value ∈ admitted name option).getLast?

theorem of_lastAdmitting (h : lastAdmitting name options value = some option) :
    option ∈ options ∧ value ∈ admitted name option := by
  have hmem := List.mem_filter.mp (List.mem_of_getLast? h)
  exact ⟨hmem.1, of_decide_eq_true hmem.2⟩

theorem exists_lastAdmitting (hoption : option ∈ options) (hvalue : value ∈ admitted name option) :
    ∃ last, lastAdmitting name options value = some last := by
  have hmem : option ∈ options.filter fun option => value ∈ admitted name option :=
    List.mem_filter.mpr ⟨hoption, decide_eq_true hvalue⟩
  exact ⟨_, List.getLast?_eq_some_getLast (List.ne_nil_of_mem hmem)⟩

/-- Where no value is admitted by two options, each option is the last one for all of its values. -/
theorem lastAdmitting_of_disjoint
    (disjoint : ∀ a ∈ options, ∀ b ∈ options, ∀ v, v ∈ admitted name a → v ∈ admitted name b → a = b)
    (hoption : option ∈ options) (hvalue : value ∈ admitted name option) :
    lastAdmitting name options value = some option := by
  obtain ⟨last, hlast⟩ := exists_lastAdmitting hoption hvalue
  obtain ⟨hmem, hadmitted⟩ := of_lastAdmitting hlast
  rw [hlast, disjoint last hmem option hoption value hadmitted hvalue]

theorem SendsToLast.get?_eq {entries : Fragment} (h : SendsToLast name options entries)
    (worded : ∀ option ∈ options, ∀ o ∈ option.variants, (telling (o.field? name)).isWorded = true) (value : String) :
    Entries.get? entries value = (lastAdmitting name options value).bind target? := by
  have hfilter : (options.filter fun option => value ∈ valuesIn name option)
      = options.filter fun option => value ∈ admitted name option :=
    List.filter_congr fun option hoption => by rw [valuesIn_eq_admitted (worded option hoption)]
  rw [h.last, hfilter, lastAdmitting]

/-- With distinct identifiers, the reference to an option is a target just in case the option is the last
one for some value. -/
theorem exists_target_iff {entries : Fragment}
    (hentries : ∀ value, Entries.get? entries value = (lastAdmitting name options value).bind target?)
    (distinct : (options.map Schema.refId?).Nodup) (hoption : option ∈ options) {refId : String}
    (hrefId : option.refId? = some refId) :
    (∃ value, Entries.get? entries value = some (.string (Reference.schemaPath refId)))
      ↔ ∃ value, lastAdmitting name options value = some option := by
  refine exists_congr fun value => ?_
  rw [hentries]
  constructor
  · intro h
    obtain ⟨last, hlast, htarget⟩ := Option.bind_eq_some_iff.mp h
    obtain ⟨refId', hrefId', hpath⟩ := Option.map_eq_some_iff.mp htarget
    have hsame : refId' = refId := Reference.path_inj (Json.string.inj hpath)
    have hidentifiers : last.refId? = option.refId? := by rw [hrefId', hrefId, hsame]
    rw [hlast, List.inj_on_of_nodup_map distinct (of_lastAdmitting hlast).1 hoption hidentifiers]
  · intro h
    rw [h, Option.bind_some, target?, hrefId]
    rfl

end Discriminator

namespace Schema

open Discriminator

/-- A union whose options have distinct identifiers, and where all literals below are strings, sends every
value to the last option that admits it. So an option is led to just in case it is the last one for some
value, and all of them are if each admits a value and no two the same. -/
theorem last_option_mapped {s : Schema} {name : String} {options : List Schema}
    (union : s.core.kind = .discriminatedUnion name options) (strict : s.isNullable = false)
    (named : ∀ option ∈ options, option.refId?.isSome = true)
    (distinct : (options.map refId?).Nodup)
    (worded : ∀ option ∈ options, ∀ o ∈ option.variants, (telling (o.field? name)).isWorded = true)
    {dialect : Dialect} {default : Option Json} {store after : Store Fragment} {body : Fragment}
    (h : (s.shape false).compile dialect s.isNullable default store = .ok (body, after)) :
    ∃ entries, Entries.get? body "discriminator" = some (written name entries)
      ∧ (Entries.keys entries).Nodup
      ∧ (∀ value, Entries.get? entries value = (lastAdmitting name options value).bind target?)
      ∧ (∀ option ∈ options, ∀ refId, option.refId? = some refId →
          ((∃ value, Entries.get? entries value = some (.string (Reference.schemaPath refId)))
            ↔ ∃ value, lastAdmitting name options value = some option))
      ∧ ((∀ option ∈ options, ∃ value, value ∈ admitted name option) →
          (∀ a ∈ options, ∀ b ∈ options, ∀ v, v ∈ admitted name a → v ∈ admitted name b → a = b) →
          ∀ option ∈ options, ∀ refId, option.refId? = some refId →
            ∃ value, Entries.get? entries value = some (.string (Reference.schemaPath refId))) := by
  obtain ⟨_, _, entries, hwritten, hsends⟩ := accepted_of_compile union strict named h
  have hentries := hsends.get?_eq worded
  refine ⟨entries, hwritten, hsends.distinct, hentries, ?_, ?_⟩
  · intro option hoption refId hrefId
    exact exists_target_iff hentries distinct hoption hrefId
  · intro valued disjoint option hoption refId hrefId
    obtain ⟨value, hvalue⟩ := valued option hoption
    have hlast : lastAdmitting name options value = some option :=
      lastAdmitting_of_disjoint disjoint hoption hvalue
    exact (exists_target_iff hentries distinct hoption hrefId).mpr ⟨value, hlast⟩

/-- An option that is a union itself is led to by the value that its objects share. -/
theorem nested_option_mapped :
    let said := fun text => ofKind (.literal (.string text))
    let cat := (object [("type", said "pet"), ("sound", said "meow")]).named "Cat"
    let dog := (object [("type", said "pet"), ("sound", said "woof")]).named "Dog"
    let pet := (ofKind (.discriminatedUnion "sound" [cat, dog])).named "Pet"
    let car := (object [("type", ofKind (.enumeration ["car", "van"]))]).named "Car"
    let s := ofKind (.discriminatedUnion "type" [pet, car])
    ∃ body after entries, (s.shape false).compile .types s.isNullable none {} = .ok (body, after)
      ∧ Entries.get? body "discriminator" = some (written "type" entries)
      ∧ Entries.get? entries "pet" = some (.string "#/components/schemas/Pet")
      ∧ Entries.get? entries "van" = some (.string "#/components/schemas/Car")
      ∧ Entries.get? entries "cat" = none := by
  intro said cat dog pet car s
  have hnamed : ∀ option ∈ [pet, car], option.refId?.isSome = true := by decide
  have hdistinct : ([pet, car].map refId?).Nodup := by decide
  have hworded : ∀ option ∈ [pet, car], ∀ o ∈ option.variants,
      (telling (o.field? "type")).isWorded = true := by decide
  have hrun : (s.shape false).compile .types s.isNullable none {} = .ok (_, _) := rfl
  obtain ⟨entries, hwritten, _, hentries, _⟩ :=
    last_option_mapped rfl rfl hnamed hdistinct hworded hrun
  exact ⟨_, _, entries, hrun, hwritten, hentries "pet", hentries "van", hentries "cat"⟩

/-- An option is not led to if a later one has all of its values. -/
theorem earlier_option_unreached :
    let a := (object [("kind", ofKind (.literal (.string "x")))]).named "A"
    let b := (object [("kind", ofKind (.enumeration ["x", "y"]))]).named "B"
    let s := ofKind (.discriminatedUnion "kind" [a, b])
    s.isNullable = false ∧ a.refId? = some "A" ∧ b.refId? = some "B"
      ∧ admitted "kind" a = ["x"] ∧ admitted "kind" b = ["x", "y"]
      ∧ ∃ body after entries, (s.shape false).compile .types s.isNullable none {} = .ok (body, after)
        ∧ Entries.get? body "discriminator" = some (written "kind" entries)
        ∧ ∀ value, Entries.get? entries value ≠ some (.string "#/components/schemas/A") := by
  intro a b s
  refine ⟨rfl, rfl, rfl, rfl, rfl, _, _,
    [("x", .string "#/components/schemas/B"), ("y", .string "#/components/schemas/B")], rfl, rfl, ?_⟩
  intro value h
  have hmem := Entries.mem_of_get? h
  simp at hmem

/-- What the objects of an option that is accepted tell: the object that it is itself, its texts, and those
of a nested union texts as well, nothing, or a literal whose text is the only value. -/
theorem told_of_accepted {name : String} {option o : Schema} (h : Accepted name option)
    (ho : o ∈ option.variants) :
    (∃ texts, telling (o.field? name) = .texts texts)
      ∨ option.core.isObject = false ∧ (telling (o.field? name) = .nothing
        ∨ ∃ value, telling (o.field? name) = .spelled value
          ∧ ∀ v, v ∈ valuesIn name option ↔ v = value.compact) := by
  cases h with
  | object hobject htold =>
    rw [variants_of_object hobject, List.mem_singleton] at ho
    exact Or.inl ⟨_, ho ▸ htold⟩
  | @union inner options value hkind hvalue =>
    have hobject : option.core.isObject = false := by simp [isObject, hkind]
    cases htold : telling (o.field? name) with
    | texts texts => exact Or.inl ⟨texts, rfl⟩
    | nothing => exact Or.inr ⟨hobject, Or.inl rfl⟩
    | spelled literal =>
      have hmem : literal.compact ∈ valuesIn name option :=
        mem_valuesIn_iff.mpr ⟨o, ho, by rw [htold]; exact List.mem_singleton_self _⟩
      refine Or.inr ⟨hobject, Or.inr ⟨literal, rfl, ?_⟩⟩
      rw [(hvalue _).mp hmem]
      exact hvalue

/-- A union with named options has its options checked one by one. An object must tell its texts; a nested
union must have one value among all its objects, where those that tell nothing are passed over and literals
that are not strings count with their text. The first option that does not meet this is refused. -/
theorem discriminator_checked {s : Schema} {name : String} {options : List Schema}
    (union : s.core.kind = .discriminatedUnion name options) (strict : s.isNullable = false)
    (named : ∀ option ∈ options, option.refId?.isSome = true) (dialect : Dialect)
    (default : Option Json) (store : Store Fragment) :
    ((∃ body after, (s.shape false).compile dialect s.isNullable default store = .ok (body, after))
        ↔ (∃ compiled after, Shape.compileAll dialect (sites options) store = .ok (compiled, after))
          ∧ ∀ option ∈ options, Accepted name option)
      ∧ (∀ compiled after, Shape.compileAll dialect (sites options) store = .ok (compiled, after) →
          ∀ option ∈ options, ¬ Accepted name option →
          ∃ cause, (s.shape false).compile dialect s.isNullable default store
            = .error (.unsupported cause) ∧ cause.discriminator? = some name)
      ∧ ∀ body after, (s.shape false).compile dialect s.isNullable default store = .ok (body, after) →
          (∃ entries, Entries.get? body "discriminator" = some (written name entries))
            ∧ ∀ option ∈ options, ∀ o ∈ option.variants,
              (∃ texts, telling (o.field? name) = .texts texts)
                ∨ option.core.isObject = false ∧ (telling (o.field? name) = .nothing
                  ∨ ∃ value, telling (o.field? name) = .spelled value
                    ∧ ∀ v, v ∈ valuesIn name option ↔ v = value.compact) := by
  refine ⟨⟨?_, ?_⟩, ?_, ?_⟩
  · rintro ⟨body, after, h⟩
    obtain ⟨⟨compiled, hcompiled⟩, accepted, _⟩ := accepted_of_compile union strict named h
    exact ⟨⟨compiled, after, hcompiled⟩, accepted⟩
  · rintro ⟨⟨compiled, after, hcompiled⟩, accepted⟩
    obtain ⟨body, _, hbody, _⟩ := compile_of_accepted union strict named hcompiled accepted
    exact ⟨body, after, hbody⟩
  · intro compiled after hcompiled option hoption refused
    exact compile_of_not_accepted union strict named hcompiled hoption refused
  · intro body after h
    obtain ⟨_, accepted, entries, hwritten, _⟩ := accepted_of_compile union strict named h
    refine ⟨⟨entries, hwritten⟩, fun option hoption o ho => ?_⟩
    exact told_of_accepted (accepted option hoption) ho

/-- A number is refused as the value of an option, and counts with its text below a nested union. -/
theorem nested_number_accepted :
    let number := ofKind (.literal (.nat 1))
    let cat := (object [("kind", number), ("sound", ofKind (.literal (.string "meow")))]).named "Cat"
    let pet := (ofKind (.discriminatedUnion "sound" [cat])).named "Pet"
    let direct := ofKind (.discriminatedUnion "kind" [cat])
    let nested := ofKind (.discriminatedUnion "kind" [pet])
    telling (cat.field? "kind") = .spelled (.nat 1)
      ∧ (∃ cause, (direct.shape false).compile .types direct.isNullable none {}
          = .error (.unsupported cause) ∧ cause.discriminator? = some "kind")
      ∧ (∀ v, v ∈ valuesIn "kind" pet ↔ v = "1")
      ∧ ∃ body after, (nested.shape false).compile .types nested.isNullable none {} = .ok (body, after)
        ∧ Entries.get? body "discriminator"
          = some (written "kind" [("1", .string "#/components/schemas/Pet")]) := by
  intro number cat pet direct nested
  have htold : telling (cat.field? "kind") = .spelled (.nat 1) := rfl
  have hrun : (nested.shape false).compile .types nested.isNullable none {} = .ok (_, _) := rfl
  have hdirect : direct.core.kind = .discriminatedUnion "kind" [cat] := rfl
  have hnested : nested.core.kind = .discriminatedUnion "kind" [pet] := rfl
  obtain ⟨_, hrefusal, _⟩ := discriminator_checked hdirect rfl (by decide) .types none {}
  obtain ⟨_, _, hobjects⟩ := discriminator_checked hnested rfl (by decide) .types none {}
  refine ⟨htold, ?_, ?_, _, _, hrun, rfl⟩
  · apply hrefusal _ _ rfl cat List.mem_cons_self
    rw [accepted_object_iff rfl]
    rintro ⟨texts, h⟩
    cases htold.symm.trans h
  · rcases (hobjects _ _ hrun).2 pet List.mem_cons_self cat List.mem_cons_self with
      ⟨texts, h⟩ | ⟨_, h | ⟨value, h, hvalues⟩⟩
    · cases htold.symm.trans h
    · cases htold.symm.trans h
    · cases htold.symm.trans h
      exact hvalues

end Schema
end OpenApi
