/-
# OpenApi.Proofs.RequestParameters -- the parameters of an operation are those of its request

An operation lists the parameters that were given finished, and behind them an entry for whatever
its request carries, section by section. An entry is a parameter object, or it is a reference to a
registered one; `Json.parameter?` follows the reference in the output. What it stands for has the
location of the section, and in an object the key of the property as its name
(`Parameter.StandsFor`, `Parameter.Contributes`).

Three things have to fit for that. A place of use is answered with a reference only where name and
location agree with what is registered. Everything else is compiled under the name and the
location that were written onto it. And what is registered when an operation is compiled is what
stands in the output in the end, since nothing is registered once operations are compiled.
-/
import Mathlib.Data.List.Forall2
import OpenApi.Proofs.Annotation
import OpenApi.Proofs.PathItems
import OpenApi.Proofs.ReferenceClosure

namespace OpenApi

/-! ## What an entry stands for -/

namespace Json

/-- The parameter that a path leads to among the components of an output. -/
def parameterAt? (output : Json) (path : String) : Option Fragment :=
  match output.group? "parameters" with
  | some (.object members) =>
    match members.find? fun e => Reference.parameterPath e.1 == path with
    | some (_, .object parameter) => some parameter
    | _ => none
  | _ => none

/-- The parameter object that an entry of an operation stands for. A reference object stands for
what it refers to, and any other object for itself. -/
def parameter? (output : Json) : Fragment → Option Fragment
  | [("$ref", .string path)] => output.parameterAt? path
  | entry => some entry

end Json

namespace Parameter

/-- An entry stands for a parameter of the given location and name. -/
def StandsFor (output : Json) (location : Location) (name : String) (entry : Fragment) : Prop :=
  ∃ parameter, output.parameter? entry = some parameter
    ∧ Entries.get? parameter "in" = some (.string location.text)
    ∧ Entries.get? parameter "name" = some (.string name)

/-- A schema has the identifier of a parameter that one of the definitions registers. -/
def Reuses (definitions : List Definition) (s : Schema) : Prop :=
  ∃ refId signature, s.refId? = some refId ∧ ∃ d ∈ definitions, d.Registers refId signature

/-- The entries that a schema in a section of a request contributes: one for a registered
parameter, one for each property of an object, in order and under its key, and one for any other
schema. -/
inductive Contributes (output : Json) (definitions : List Definition) (location : Location)
    (s : Schema) : List Fragment → Prop
  | reused {refId name : String} :
      Reuses definitions s → s.refId? = some refId →
      StandsFor output location name (Reference.toParameter refId) →
      Contributes output definitions location s [Reference.toParameter refId]
  | properties {fields : List (String × Schema)} {treatment : UnknownKeys}
      {catchall : Option Schema} {entries : List Fragment} :
      ¬ Reuses definitions s → s.kind = .object fields treatment catchall →
      List.Forall₂ (fun field entry => StandsFor output location field.1 entry) fields entries →
      Contributes output definitions location s entries
  | single {name : String} {entry : Fragment} :
      ¬ Reuses definitions s → s.isObject = false → StandsFor output location name entry →
      Contributes output definitions location s [entry]

theorem exists_of_mem_right {α β : Type} {R : α → β → Prop} {xs : List α} {ys : List β}
    (h : List.Forall₂ R xs ys) {y : β} (hy : y ∈ ys) : ∃ x ∈ xs, R x y := by
  induction h with
  | nil => cases hy
  | cons hfirst _ ih =>
    rcases List.mem_cons.mp hy with rfl | hy
    · exact ⟨_, List.mem_cons_self, hfirst⟩
    · obtain ⟨x, hx, hR⟩ := ih hy
      exact ⟨x, List.mem_cons_of_mem _ hx, hR⟩

theorem Contributes.standsFor {output : Json} {definitions : List Definition}
    {location : Location} {s : Schema} {entries : List Fragment}
    (h : Contributes output definitions location s entries) {entry : Fragment}
    (hentry : entry ∈ entries) : ∃ name, StandsFor output location name entry := by
  cases h with
  | reused _ _ hstands =>
    rw [List.mem_singleton.mp hentry]
    exact ⟨_, hstands⟩
  | properties _ _ hfields =>
    obtain ⟨field, _, hstands⟩ := exists_of_mem_right hfields hentry
    exact ⟨_, hstands⟩
  | single _ _ hstands =>
    rw [List.mem_singleton.mp hentry]
    exact ⟨_, hstands⟩

end Parameter

/-! ## What an operation lists -/

/-- The schemas that a request gives for its parameters at a location. Headers are given as one
schema or as several, everything else as one. -/
def Request.schemasAt (request : Request) : Location → List Schema
  | .path => request.params.toList
  | .query => request.query.toList
  | .cookie => request.cookies.toList
  | .header =>
    match request.headers with
    | some (.list schemas) => schemas
    | some (.schema s) => [s]
    | none => []

/-- The sections that are compiled are what the request gives. -/
theorem Request.section_eq_schemasAt (request : Request) (location : Location) :
    request.section location = request.schemasAt location := by
  cases location with
  | path | query | cookie => rfl
  | header =>
    unfold Request.section schemasAt
    cases request.headers with
    | none => rfl
    | some headers => cases headers <;> rfl

/-- What is given by location, in the order in which an operation lists it. -/
def Location.listed {α : Type} (entries : Location → List α) : List α :=
  entries .path ++ entries .query ++ entries .header ++ entries .cookie

namespace Route

/-- The schemas that the request of a route gives for its parameters at a location. -/
def schemasAt (r : Route) (location : Location) : List Schema :=
  match r.request with
  | some request => request.schemasAt location
  | none => []

/-- The parameters that were given finished. -/
def finishedParameters (r : Route) : List Json :=
  match Entries.get? r.operation "parameters" with
  | some (.array finished) => finished
  | _ => []

/-- Entries for each location, as the sections of a route contribute them. -/
def Gathers (output : Json) (definitions : List Definition) (r : Route)
    (entries : Location → List Fragment) : Prop :=
  ∀ location, ∃ parts, entries location = parts.flatten
    ∧ List.Forall₂ (Parameter.Contributes output definitions location) (r.schemasAt location) parts

/-- An operation object lists the parameters of a route: behind those that were given finished,
the entries of each location, as its section contributes them. Where there are none, what the
route says under `parameters` stays as it is. -/
structure Lists (output : Json) (definitions : List Definition) (r : Route) (operation : Fragment)
    (entries : Location → List Fragment) : Prop where
  untouched : Location.listed entries = [] →
    Entries.get? operation "parameters" = Entries.get? r.operation "parameters"
  written : Location.listed entries ≠ [] →
    Entries.get? operation "parameters"
      = some (.array (r.finishedParameters ++ (Location.listed entries).map Json.object))
  gathers : r.Gathers output definitions entries
  standsFor : ∀ location, ∀ entry ∈ entries location,
    ∃ name, Parameter.StandsFor output location name entry

end Route

/-! ## Names and locations of what is compiled -/

namespace Parameter

variable {dialect : Dialect} {registered : Store Fragment} {s : Schema} {location : Location}

/-- What is compiled has the name and the location that the schema declares. -/
theorem ends_compile (s : Schema) :
    Compile.Ends (fun new => declared? s = some (signatureOf new)) (compile dialect s) := by
  rcases compile_cases s with ⟨_, problem, hfail⟩ | ⟨name, location, hdeclared, hcompile⟩
  · rw [hfail]
    exact .fail problem
  · rw [hcompile]
    refine .after fun bare => .pure ?_
    rw [signatureOf_placed]
    exact hdeclared

theorem ownMetadata?_annotate (s : Schema) (metadata : Metadata) :
    (s.annotate metadata).ownMetadata? = some (match s.ownMetadata? with
      | some existing => existing.merge metadata
      | none => metadata) := by
  refine (Schema.ownMetadata?_make (.annotate metadata) s).trans ?_
  cases s.ownMetadata? <;> rfl

theorem metadata_parameter (s : Schema) (info : ParameterInfo) :
    (s.parameter info).metadata.parameter
      = Metadata.mergeParameter (s.ownMetadata?.bind (·.parameter)) (some info) := by
  unfold Schema.parameter Schema.metadata
  rw [ownMetadata?_annotate]
  cases s.ownMetadata? with
  | none => rfl
  | some own => cases own.parameter <;> rfl

/-- A property is compiled under its key, at the location of its section. -/
theorem declared?_property (s : Schema) (location : Location) (key : String) :
    declared? (s.parameter { name := some key, location := some location })
      = some (some location.text, some key) := by
  unfold declared?
  rw [metadata_parameter]
  cases s.ownMetadata?.bind (·.parameter) <;> rfl

/-- A schema for a single parameter is compiled at the location of its section. -/
theorem declared?_single {signature : Option String × Option String}
    (h : declared? (s.parameter { location := some location }) = some signature) :
    ∃ name, signature = (some location.text, some name) := by
  unfold declared? at h
  rw [metadata_parameter] at h
  obtain ⟨name, _, hsignature⟩ := Option.bind_eq_some_iff.mp h
  refine ⟨name, ?_⟩
  cases hown : s.ownMetadata?.bind (·.parameter) <;> rw [hown] at hsignature <;>
    exact (Option.some.inj hsignature).symm

/-! ## Names and locations of what is referred to -/

/-- A reference is answered where the registered parameter has the location of the place, and its
name if it has one. -/
theorem of_reference?_some {name : Option String} {answer : Fragment}
    (h : reference? registered s location name = .ok (some answer)) :
    ∃ refId old, s.refId? = some refId ∧ registered.get? refId = some old
      ∧ answer = Reference.toParameter refId ∧ textOf old .location = some location.text
      ∧ ∀ key, name = some key → textOf old .name = some key := by
  unfold reference? at h
  split at h
  · cases h
  · rename_i refId old hfound
    obtain ⟨own, hown, hfound⟩ := Option.bind_eq_some_iff.mp hfound
    obtain ⟨stored, hstored, hpair⟩ := Option.map_eq_some_iff.mp hfound
    cases hpair
    dsimp only at h
    split at h
    · cases h
    · rename_i hlocation
      split at h
      · cases h
      · rename_i hname
        cases h
        refine ⟨refId, old, hown, hstored, rfl, ?_, fun key hkey => ?_⟩
        · simp only [Bool.or_eq_true, not_or, differs] at hlocation
          simpa using (Eq.symm (by simpa using hlocation.2))
        · subst hkey
          simp only [Bool.or_eq_true, not_or, differs] at hname
          simpa using (Eq.symm (by simpa using hname.2))

/-- No reference is answered where the identifier is not registered. -/
theorem of_reference?_none {name : Option String}
    (h : reference? registered s location name = .ok none) {refId : String}
    (hrefId : s.refId? = some refId) : registered.get? refId = none := by
  unfold reference? at h
  rw [hrefId, Option.bind_some] at h
  cases hget : registered.get? refId with
  | none => rfl
  | some old =>
    rw [hget] at h
    dsimp only [Option.map_some] at h
    split at h
    · cases h
    · split at h <;> cases h

/-! ## Entries of sections -/

/-- What is registered is found in an output, with a location and a name, and was registered by
the given definitions. -/
structure Published (output : Json) (definitions : List Definition) (registered : Store Fragment) :
    Prop where
  found : ∀ refId old, registered.get? refId = some old →
    output.parameter? (Reference.toParameter refId) = some old
  signed : ∀ refId old, registered.get? refId = some old →
    ∃ location name, signatureOf old = (some location, some name)
  submitted : ∀ refId, registered.contains refId = true
    ↔ ∃ signature, ∃ d ∈ definitions, d.Registers refId signature

variable {output : Json} {definitions : List Definition}

/-- An object with a location is no reference, so it stands for itself. -/
theorem parameter?_of_located {entry : Fragment} {text : String}
    (h : textOf entry .location = some text) : output.parameter? entry = some entry := by
  unfold Json.parameter?
  split
  · rename_i path
    simp [textOf, ParameterKey.text, Entries.get?] at h
  · rfl

/-- The text under a key is what the object has there. -/
theorem textOf_eq_some_iff {parameter : Fragment} {key : ParameterKey} {text : String} :
    textOf parameter key = some text
      ↔ Entries.get? parameter key.text = some (.string text) := by
  unfold textOf
  cases Entries.get? parameter key.text with
  | none => simp
  | some value => cases value <;> simp [Json.string?]

theorem standsFor_of_texts {entry parameter : Fragment} {name : String}
    (hparameter : output.parameter? entry = some parameter)
    (hlocation : textOf parameter .location = some location.text)
    (hname : textOf parameter .name = some name) : StandsFor output location name entry :=
  ⟨parameter, hparameter, textOf_eq_some_iff.mp hlocation, textOf_eq_some_iff.mp hname⟩

theorem standsFor_of_signature {entry : Fragment} {name : String}
    (h : signatureOf entry = (some location.text, some name)) :
    StandsFor output location name entry :=
  standsFor_of_texts (parameter?_of_located (congrArg Prod.fst h)) (congrArg Prod.fst h)
    (congrArg Prod.snd h)

section Published

variable (published : Published output definitions registered)

include published

theorem Published.reuses_iff :
    Reuses definitions s ↔ ∃ refId, s.refId? = some refId ∧ registered.contains refId = true := by
  simp only [published.submitted, Reuses]
  constructor
  · rintro ⟨refId, signature, hrefId, hregisters⟩
    exact ⟨refId, hrefId, signature, hregisters⟩
  · rintro ⟨refId, hrefId, signature, hregisters⟩
    exact ⟨refId, signature, hrefId, hregisters⟩

/-- A reference that is answered stands for a parameter at the place of use. -/
theorem Published.of_reference?_some {name : Option String} {answer : Fragment}
    (h : reference? registered s location name = .ok (some answer)) :
    Reuses definitions s ∧ ∃ refId own, s.refId? = some refId
      ∧ answer = Reference.toParameter refId ∧ (∀ key, name = some key → own = key)
      ∧ StandsFor output location own answer := by
  obtain ⟨refId, old, hrefId, hold, rfl, hlocation, hname⟩ := Parameter.of_reference?_some h
  obtain ⟨text, own, hsigned⟩ := published.signed refId old hold
  have htext : textOf old .location = some text := congrArg Prod.fst hsigned
  have hown : textOf old .name = some own := congrArg Prod.snd hsigned
  refine ⟨published.reuses_iff.mpr ⟨refId, hrefId, Store.contains_of_get? hold⟩, refId, own, hrefId,
    rfl, fun key hkey => ?_, standsFor_of_texts (published.found refId old hold) hlocation hown⟩
  rw [hname key hkey] at hown
  exact (Option.some.inj hown).symm

theorem Published.of_reference?_none {name : Option String}
    (h : reference? registered s location name = .ok none) : ¬ Reuses definitions s := by
  rw [published.reuses_iff]
  rintro ⟨refId, hrefId, hcontains⟩
  rw [Store.contains_eq_isSome, Parameter.of_reference?_none h hrefId] at hcontains
  cases hcontains

/-- The entry of a property stands for a parameter whose name is the key. -/
theorem Published.ends_ofProperty (location : Location) (key : String) (s : Schema) :
    Compile.Ends (StandsFor output location key) (ofProperty dialect registered location key s) := by
  unfold ofProperty
  split
  · exact .fail _
  · rename_i reference hreference
    obtain ⟨_, _, own, _, _, hown, hstands⟩ := published.of_reference?_some hreference
    rw [hown key rfl] at hstands
    exact .pure hstands
  · dsimp only
    split
    · exact .fail _
    · split
      · exact .fail _
      · intro store entry after h
        have hdeclared := ends_compile _ store entry after h
        rw [declared?_property] at hdeclared
        exact standsFor_of_signature (Option.some.inj hdeclared).symm

theorem Published.ends_ofProperties (location : Location) (fields : List (String × Schema)) :
    Compile.Ends (List.Forall₂ (fun field entry => StandsFor output location field.1 entry) fields)
      (ofProperties dialect registered location fields) := by
  induction fields with
  | nil =>
    rw [ofProperties]
    exact .pure .nil
  | cons first rest ih =>
    obtain ⟨key, s⟩ := first
    rw [ofProperties]
    refine (published.ends_ofProperty location key s).bind fun entry hentry => ?_
    exact ih.bind fun entries hentries => .pure (.cons hentry hentries)

/-- A schema in a section contributes what it should. -/
theorem Published.ends_ofSection (location : Location) (s : Schema) :
    Compile.Ends (Contributes output definitions location s)
      (ofSection dialect registered location s) := by
  unfold ofSection
  split
  · exact .fail _
  · rename_i reference hreference
    obtain ⟨hreuses, refId, own, hrefId, rfl, _, hstands⟩ := published.of_reference?_some hreference
    exact .pure (.reused hreuses hrefId hstands)
  · rename_i hreference
    have hfresh := published.of_reference?_none hreference
    split
    · rename_i fields treatment catchall hkind
      intro store entries after h
      exact .properties hfresh hkind (published.ends_ofProperties location fields store entries after h)
    · rename_i hkind
      have hobject : s.isObject = false := by
        unfold Schema.isObject
        split
        · rename_i fields treatment catchall hshape
          exact absurd hshape (hkind fields treatment catchall)
        · rfl
      split
      · exact .fail _
      · refine (ends_compile _).bind fun entry hentry => .pure ?_
        obtain ⟨name, hsignature⟩ := declared?_single hentry
        exact .single hfresh hobject (standsFor_of_signature hsignature)

/-- The entries of a section are what its schemas contribute, one after another. -/
theorem Published.ends_ofSchemas (location : Location) (schemas : List Schema) :
    Compile.Ends (fun entries => ∃ parts, entries = parts.flatten
        ∧ List.Forall₂ (Contributes output definitions location) schemas parts)
      (ofSchemas dialect registered location schemas) := by
  induction schemas with
  | nil =>
    rw [ofSchemas]
    exact .pure ⟨[], rfl, .nil⟩
  | cons s rest ih =>
    rw [ofSchemas]
    refine (published.ends_ofSection location s).mapProblem.bind fun here hhere => ?_
    refine ih.bind fun others hothers => .pure ?_
    obtain ⟨parts, rfl, hparts⟩ := hothers
    exact ⟨here :: parts, rfl, .cons hhere hparts⟩

end Published

end Parameter

/-! ## Parameters of an operation -/

/-- The lists of four sections, each found at its location. -/
def Location.lists {α : Type} (path query header cookie : List α) : Location → List α
  | .path => path
  | .query => query
  | .header => header
  | .cookie => cookie

section Operations

variable {dialect : Dialect} {registered : Store Fragment} {output : Json}
  {definitions : List Definition}

theorem Route.ends_compileParameters
    (published : Parameter.Published output definitions registered) (r : Route) :
    Compile.Ends (fun compiled => ∃ entries, compiled = Location.listed entries
        ∧ r.Gathers output definitions entries) (r.compileParameters dialect registered) := by
  obtain ⟨method, path, request, responses, operation⟩ := r
  unfold compileParameters
  cases request with
  | none => exact .pure ⟨fun _ => [], rfl, fun _ => ⟨[], rfl, .nil⟩⟩
  | some request =>
    have hsection (location : Location) := @Parameter.Published.ends_ofSchemas dialect _ _ _
      published location (request.schemasAt location)
    refine Compile.Ends.mapProblem ?_
    unfold Request.compileParameters
    simp only [Request.section_eq_schemasAt]
    refine (hsection .query).bind fun query hquery => ?_
    refine (hsection .path).bind fun path hpath => ?_
    refine (hsection .cookie).bind fun cookie hcookie => ?_
    refine (hsection .header).bind fun header hheader => .pure ?_
    refine ⟨Location.lists path query header cookie, rfl, ?_⟩
    intro location
    cases location with
    | path => exact hpath
    | query => exact hquery
    | header => exact hheader
    | cookie => exact hcookie

/-- What a route is compiled to lists its parameters. -/
theorem Route.ends_lists (published : Parameter.Published output definitions registered) (r : Route) :
    Compile.Ends (fun operation => ∃ entries, r.Lists output definitions operation entries)
      (r.compile dialect registered) := by
  unfold compile
  refine .after fun responses => ?_
  refine (r.ends_compileParameters published).bind fun compiled hcompiled => ?_
  refine .after fun body => .pure ?_
  obtain ⟨entries, rfl, hgathers⟩ := hcompiled
  have hlater (operation : Fragment) :
      Entries.get? ((Entries.insertSome operation "requestBody" body).insert "responses"
        (.object responses)) "parameters" = Entries.get? operation "parameters" := by
    have hresponses : "parameters" ≠ "responses" := by decide
    have hbody : "parameters" ≠ "requestBody" := by decide
    rw [Entries.get?_insert_of_ne _ _ hresponses, Entries.get?_insertSome_of_ne _ _ hbody]
  refine ⟨entries, fun hnone => ?_, fun hsome => ?_, hgathers, fun location entry hentry => ?_⟩
  · rw [hlater, withParameters, hnone]
    rfl
  · have hempty : (Location.listed entries).isEmpty = false := by simpa using hsome
    rw [hlater, withParameters, hempty]
    exact Entries.get?_insert_self _ _ _
  · obtain ⟨parts, hparts, hcontributes⟩ := hgathers location
    rw [hparts] at hentry
    obtain ⟨part, hpart, hentry⟩ := List.mem_flatten.mp hentry
    obtain ⟨s, _, hcontributes⟩ := Parameter.exists_of_mem_right hcontributes hpart
    exact hcontributes.standsFor hentry

end Operations

/-! ## Parameters in an output -/

namespace Parameter

variable {dialect : Dialect} {registered updated store after : Store Fragment} {s : Schema}

theorem declared?_eq_some {signature : Option String × Option String}
    (h : declared? s = some signature) :
    ∃ location name, signature = (some location, some name) := by
  obtain ⟨name, _, h⟩ := Option.bind_eq_some_iff.mp h
  obtain ⟨location, _, rfl⟩ := Option.map_eq_some_iff.mp h
  exact ⟨location.text, name, rfl⟩

theorem updated_of_enter {refId? : Option String} {new : Fragment}
    (h : enter registered refId? new store = .ok (updated, after)) :
    after = store ∧ (updated = registered ∨ ∃ refId, refId? = some refId
      ∧ registered.get? refId = none ∧ updated = (registered.define refId new).2) := by
  cases refId? with
  | none =>
    obtain ⟨rfl, rfl⟩ := Compile.of_pure_ok h
    exact ⟨rfl, Or.inl rfl⟩
  | some refId =>
    unfold enter at h
    dsimp only at h
    cases hold : registered.get? refId with
    | none =>
      rw [hold] at h
      obtain ⟨rfl, rfl⟩ := Compile.of_pure_ok h
      exact ⟨rfl, Or.inr ⟨refId, rfl, hold, rfl⟩⟩
    | some old =>
      rw [hold] at h
      dsimp only at h
      generalize List.find? _ _ = disagree at h
      cases disagree with
      | some key => cases h
      | none =>
        obtain ⟨rfl, rfl⟩ := Compile.of_pure_ok h
        exact ⟨rfl, Or.inl rfl⟩

/-- A registration leaves what is registered as it is, or adds what the schema compiles to under
its identifier, where nothing was before. -/
theorem updated_of_register (h : register dialect registered s store = .ok (updated, after)) :
    ∃ new, compile dialect s store = .ok (new, after)
      ∧ (updated = registered ∨ ∃ refId, s.refId? = some refId ∧ registered.get? refId = none
        ∧ updated = (registered.define refId new).2) := by
  rw [register_eq] at h
  obtain ⟨new, mid, hnew, h⟩ := Compile.of_bind_ok h
  obtain ⟨rfl, hupdated⟩ := updated_of_enter h
  exact ⟨new, hnew, hupdated⟩

end Parameter

namespace Generation

variable {dialect : Dialect} {generation after : Generation} {definitions : List Definition}

theorem unique_parameters_stepsTo {d : Definition} (h : StepsTo dialect generation d after)
    (unique : generation.parameters.Unique) : after.parameters.Unique := by
  cases h with
  | parameter hact =>
    obtain ⟨new, _, hsame | ⟨refId, _, _, hdefine⟩⟩ := Parameter.updated_of_register hact
    · exact hsame ▸ unique
    · exact hdefine ▸ unique.define refId new
  | plain _ | schema _ | component _ | route _ | webhook _ _ => exact unique

/-- A run never registers two parameters alike. -/
theorem unique_parameters_steps (unique : generation.parameters.Unique)
    (h : generation.steps dialect definitions = .ok after) : after.parameters.Unique := by
  induction definitions generalizing generation with
  | nil =>
    cases h
    exact unique
  | cons d rest ih =>
    obtain ⟨next, hstep, hrest⟩ := steps_cons_eq_ok h
    exact ih (unique_parameters_stepsTo hstep unique) hrest

end Generation

theorem Reference.find?_parameterPath {members : Fragment} {name : String} {value : Json}
    (h : Entries.get? members name = some value) :
    (members.find? fun e => parameterPath e.1 == parameterPath name) = some (name, value) := by
  induction members with
  | nil => cases h
  | cons first rest ih =>
    obtain ⟨key, v⟩ := first
    by_cases hkey : key = name
    · subst hkey
      simp only [Entries.get?, if_true, Option.some.injEq] at h
      simp [h]
    · have hpath : parameterPath key ≠ parameterPath name := fun hpath => hkey (path_inj hpath)
      simp only [Entries.get?, hkey, if_false] at h
      simpa [hpath] using ih h

namespace Generation

variable {dialect : Dialect} {generation after : Generation} {definitions : List Definition}

/-- A reference to a registered parameter leads to it, whatever finished components there are. -/
theorem parameter?_toParameter (unique : generation.parameters.Unique) {refId : String}
    {old : Fragment} (h : generation.parameters.get? refId = some old) :
    (Json.object (generation.writeOver [])).parameter? (Reference.toParameter refId)
      = some old := by
  have hfound : Entries.get? (Entries.extend
      ((Entries.get? (overGroup (RawComponent.grouped generation.components) "schemas"
        generation.schemas) "parameters").getD [])
      (Entries.mapValues Json.object generation.parameters.entries)) refId
      = some (.object old) := by
    rw [get?_extend_compiled unique, h]
    rfl
  show Json.parameterAt? _ (Reference.parameterPath refId) = some old
  unfold Json.parameterAt?
  rw [group?_writeOver, get?_overGroup_self, Option.map_some]
  dsimp only
  rw [Reference.find?_parameterPath hfound]

/-- What is registered in the end is found in the output. -/
theorem published_ofDefinitions (h : ofDefinitions dialect definitions = .ok generation) :
    Parameter.Published (.object (generation.writeOver [])) definitions generation.parameters := by
  have hmade := (madeOf_ofDefinitions h).parameters
  have hempty : ({} : Generation).parameters.Unique := List.nodup_nil
  constructor
  · intro refId old hold
    exact parameter?_toParameter (unique_parameters_steps hempty h) hold
  · intro refId old hold
    obtain ⟨d, _, s, _, _, hdeclared⟩ :=
      (hmade refId _).mp (Parameter.signature?_of_get? hold)
    exact Parameter.declared?_eq_some hdeclared
  · intro refId
    rw [Store.contains_eq_isSome, ← Option.isSome_map
      (f := fun old => (Parameter.textOf old .location, Parameter.textOf old .name))]
    rw [Option.isSome_iff_exists]
    exact exists_congr fun signature => hmade refId signature

end Generation

/-! ## Parameters of an operation in an output -/

/-- Every operation in an output lists the parameters of the last route that was submitted for its
path and its method: those that were given finished, and behind them the entries for its request
by location. Each entry stands for a parameter of its location, and the properties of an object
contribute one entry each, in order and under their keys, unless the object itself is the
parameter that is registered. -/
theorem operation_parameters {version : Version} {definitions : List Definition} {output : Json}
    (h : generateData version definitions = .ok output) (part : OperationPart)
    {path method : String} {operation : Json}
    (hoperation : output.operation? part.key path method = some operation) :
    ∃ r compiled entries, (part.routesAt definitions path method).getLast? = some r
      ∧ operation = .object compiled ∧ r.Lists output definitions compiled entries := by
  obtain ⟨generation, hrun, rfl⟩ := generateData_eq_ok h
  rw [Generation.operation?_writeOver] at hoperation
  obtain ⟨r, compiled, store, store', hlast, hcompile, rfl⟩ :=
    Generation.operation?_ofDefinitions hrun hoperation
  obtain ⟨entries, hlists⟩ :=
    r.ends_lists (Generation.published_ofDefinitions hrun) store compiled store' hcompile
  exact ⟨r, compiled, entries, hlast, rfl, hlists⟩

/-- A finished parameter comes first, then the path, the query, the headers and the cookies: a
property that is registered as a parameter is referred to, a header that is given by itself is
written under the name it declares, and every other property under its key. -/
theorem lists_after_finished :
    let text := Schema.ofKind (.string [])
    let page := (text.named "Page").parameter { name := some "page", location := some .query }
    let finished : Json := .object [("name", .string "trace"), ("in", .string "header")]
    let find : Route := {
      method := .get
      path := "/pets"
      request := some {
        params := some (Schema.object [("id", text)])
        query := some (Schema.object [("page", page), ("limit", text.optional)])
        cookies := some (Schema.object [("session", text)])
        headers := some (.list [text.parameter { name := some "X-Tenant" },
          Schema.object [("X-Trace", text.optional)]]) }
      operation := [("parameters", .array [finished])] }
    let written (name location : String) (required : Bool) : Json :=
      .object [("schema", .object [("type", .string "string")]), ("required", .bool required),
        ("name", .string name), ("in", .string location)]
    let definitions : List Definition := [.route find, .parameter page]
    ∃ output operation, generateData .v310 definitions = .ok output
      ∧ output.operation? "paths" "/pets" "get" = some (.object operation)
      ∧ Entries.get? operation "parameters"
        = some (.array [finished, written "id" "path" true,
          .object (Reference.toParameter "Page"), written "limit" "query" false,
          written "X-Tenant" "header" true, written "X-Trace" "header" false,
          written "session" "cookie" true])
      ∧ ∃ r compiled entries, (OperationPart.paths.routesAt definitions "/pets" "get").getLast? = some r
        ∧ Json.object operation = .object compiled ∧ r.Lists output definitions compiled entries := by
  intro text page finished find written definitions
  exact ⟨_, _, rfl, rfl, rfl, operation_parameters rfl .paths rfl⟩

end OpenApi
