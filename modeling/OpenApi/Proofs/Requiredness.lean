/-
# OpenApi.Proofs.Requiredness -- whether a referenced parameter is required

A parameter is required where its schema accepts neither null nor a missing value, unless the
parameter data of the schema say otherwise under `required`. A reference takes this from the
schema that was registered, and a property that is written out takes it from its own schema. The
two schemas only share an identifier, and an identifier is visible through wrappers that accept
null or a missing value; of the two parameter objects only name and location are compared. So
reference and expansion agree just in case both schemas say the same (`referenced_requiredness`),
and under a stack of wrappers that is a matter of the wrappers alone.

The schema that was registered is the first one that was: `Generation.Registration` traces what is
found under an identifier back to the call that put it there.
-/
import OpenApi.Proofs.Acyclicity
import OpenApi.Proofs.RequestParameters
import OpenApi.Proofs.Wrapping

namespace OpenApi

/-! ## What a schema says -/

namespace Schema

/-- Whether a parameter with this schema has to be given. -/
def isRequired (s : Schema) : Bool := !s.isOptional && !s.isNullable

/-- What the parameter data of a schema say under `required`. -/
def statedRequired? (s : Schema) : Option Json :=
  s.parameterMetadata.parameter.bind fun info => Entries.get? info.keys "required"

/-- The value under `required` in a parameter object with this schema. -/
def requiredValue (s : Schema) : Json := s.statedRequired?.getD (.bool s.isRequired)

theorem requiredValue_of_unstated {s : Schema} (h : s.statedRequired? = none) :
    s.requiredValue = .bool s.isRequired := by
  rw [requiredValue, h, Option.getD_none]

/-- What is said about a schema changes nothing of what it accepts. -/
theorem isRequired_annotate (s : Schema) (metadata : Metadata) :
    (s.annotate metadata).isRequired = s.isRequired := by
  obtain ⟨kind, description, label⟩ := s
  cases kind <;> rfl

/-! ## Wrappers -/

/-- The wrapper accepts neither null nor a missing value. -/
def Wrapper.Demanding : Wrapper → Prop
  | brand _ | readonly | refine => True
  | optional | nullable | nullish | withDefault _ => False

theorem isRequired_wrap_of_demanding {w : Wrapper} (h : w.Demanding) (s : Schema) :
    (w.wrap s).isRequired = s.isRequired := by
  cases w with
  | brand name | readonly | refine =>
    simp only [Wrapper.wrap, brand, readonly, refine, ofKind, isRequired, isOptional, isNullable]
  | optional | nullable | nullish | withDefault value => exact h.elim

theorem isRequired_wrap_of_not_demanding {w : Wrapper} (h : ¬ w.Demanding) (s : Schema) :
    (w.wrap s).isRequired = false := by
  cases w with
  | optional | nullable | nullish | withDefault value =>
    simp [Wrapper.wrap, optional, nullable, nullish, withDefault, ofKind, isRequired, isOptional,
      isNullable]
  | brand name | readonly | refine => exact absurd trivial h

/-- Under a stack of wrappers a schema is required if it was, and no wrapper takes less. -/
theorem isRequired_wrapAll (wrappers : List Wrapper) (s : Schema) :
    (wrapAll wrappers s).isRequired = true
      ↔ s.isRequired = true ∧ ∀ w ∈ wrappers, w.Demanding := by
  induction wrappers with
  | nil => simp [wrapAll]
  | cons w rest ih =>
    show (w.wrap (wrapAll rest s)).isRequired = true ↔ _
    by_cases hw : w.Demanding
    · rw [isRequired_wrap_of_demanding hw, ih]
      simp [hw]
    · rw [isRequired_wrap_of_not_demanding hw]
      simp [hw]

theorem isRequired_wrapAll_eq_iff (wrappers : List Wrapper) (s : Schema) :
    s.isRequired = (wrapAll wrappers s).isRequired
      ↔ (s.isRequired = true → ∀ w ∈ wrappers, w.Demanding) := by
  rw [Bool.eq_iff_iff, isRequired_wrapAll]
  constructor
  · exact fun h hs => (h.mp hs).2
  · exact fun h => ⟨fun hs => ⟨hs, h hs⟩, And.left⟩

end Schema

/-! ## What is compiled -/

theorem Reference.toParameter_inj {refId refId' : String}
    (h : toParameter refId = toParameter refId') : refId = refId' := by
  unfold toParameter toPath at h
  rw [List.singleton_inj, Prod.mk.injEq, Json.string.injEq] at h
  exact path_inj h.2

/-- A key of a parameter object that is neither its name nor its location nor its description
comes from the extra keys. -/
theorem ParameterInfo.get?_keys_congr {info info' : ParameterInfo} {key : String}
    (hextra : info.extra = info'.extra) (hname : key ≠ "name") (hlocation : key ≠ "in")
    (hdescription : key ≠ "description") :
    Entries.get? info.keys key = Entries.get? info'.keys key := by
  unfold keys
  rw [hextra]
  apply Entries.get?_extend_congr
  simp only [Entries.get?_insertSome_of_ne _ _ hdescription,
    Entries.get?_insertSome_of_ne _ _ hlocation, Entries.get?_insertSome_of_ne _ _ hname]

theorem ParameterInfo.nodup_keys (info : ParameterInfo) : (Entries.keys info.keys).Nodup := by
  unfold keys
  have hempty : (Entries.keys ([] : Fragment)).Nodup := List.nodup_nil
  exact Entries.nodup_keys_extend (Entries.nodup_keys_insertSome (Entries.nodup_keys_insertSome
    (Entries.nodup_keys_insertSome hempty _ _) _ _) _ _) _

namespace Parameter

variable {dialect : Dialect} {registered : Store Fragment} {location : Location} {key : String}
  {s : Schema}

/-- Whether a parameter is required is settled by its schema alone. -/
theorem ends_required_compileBare (s : Schema) :
    Compile.Ends (fun bare => Entries.get? bare "required" = some s.requiredValue)
      (compileBare dialect s) := by
  unfold compileBare
  refine .after fun compiled => .pure ?_
  have hkeys : (Entries.keys ((s.parameterMetadata.parameter.map (·.keys)).getD [])).Nodup := by
    cases s.parameterMetadata.parameter with
    | none => exact List.nodup_nil
    | some info => exact info.nodup_keys
  rw [Entries.get?_extend _ hkeys]
  unfold Schema.requiredValue Schema.statedRequired?
  cases s.parameterMetadata.parameter with
  | none => rfl
  | some info =>
    show (Entries.get? info.keys "required").or _ = some ((Entries.get? info.keys "required").getD _)
    cases Entries.get? info.keys "required" <;> rfl

theorem ends_required_compile (s : Schema) :
    Compile.Ends (fun new => Entries.get? new "required" = some s.requiredValue)
      (compile dialect s) := by
  rcases compile_cases s with ⟨_, problem, hfail⟩ | ⟨name, location, _, hcompile⟩
  · rw [hfail]
    exact .fail problem
  · rw [hcompile]
    refine (ends_required_compileBare s).bind fun bare hbare => .pure ?_
    unfold placed
    rw [Entries.get?_insert_of_ne _ _ (by decide : "required" ≠ "name"),
      Entries.get?_insert_of_ne _ _ (by decide : "required" ≠ "in")]
    exact hbare

/-- Name and location that are written onto a schema do not change what it says. -/
theorem statedRequired?_parameter (s : Schema) (name : String) (location : Location) :
    (s.parameter { name := some name, location := some location }).statedRequired?
      = s.statedRequired? := by
  unfold Schema.statedRequired? Schema.parameterMetadata Schema.parameter
  rw [ownMetadata?_annotate]
  have hsame (info info' : ParameterInfo) (h : info.extra = info'.extra) :
      Entries.get? info.keys "required" = Entries.get? info'.keys "required" :=
    ParameterInfo.get?_keys_congr h (by decide) (by decide) (by decide)
  cases s.ownMetadata? with
  | none => exact hsame _ _ rfl
  | some own =>
    cases hown : own.parameter with
    | none | some info =>
      simp only [Option.getD_some, Option.bind_some, hown, Metadata.merge, Metadata.mergeParameter,
        Metadata.ofParameter]
      exact hsame _ _ rfl

theorem requiredValue_parameter (s : Schema) (name : String) (location : Location) :
    (s.parameter { name := some name, location := some location }).requiredValue
      = s.requiredValue := by
  rw [Schema.requiredValue, statedRequired?_parameter, Schema.parameter,
    Schema.isRequired_annotate, Schema.requiredValue]

/-- With nothing registered, a property is written out in place. -/
theorem ends_required_inPlace (location : Location) (key : String) (s : Schema) :
    Compile.Ends (fun expanded => Entries.get? expanded "required" = some s.requiredValue)
      (ofProperty dialect {} location key s) := by
  have hnone : reference? {} s location (some key) = .ok none := by
    unfold reference?
    cases s.refId? <;> rfl
  unfold ofProperty
  rw [hnone]
  dsimp only
  split
  · exact .fail _
  · split
    · exact .fail _
    · intro store expanded after h
      rw [ends_required_compile _ store expanded after h, requiredValue_parameter]

/-- A property that is answered with a reference was looked up among the registered parameters. -/
theorem reference?_of_ofProperty {store after : Store Fragment} {refId : String}
    (h : ofProperty dialect registered location key s store
      = .ok (Reference.toParameter refId, after)) :
    reference? registered s location key = .ok (some (Reference.toParameter refId)) := by
  unfold ofProperty at h
  cases hreference : reference? registered s location key with
  | error problem =>
    rw [hreference] at h
    cases h
  | ok answer =>
    rw [hreference] at h
    cases answer with
    | some reference => rw [(Compile.of_pure_ok h).1]
    | none =>
      dsimp only at h
      generalize Option.filter _ _ = name, locationConflict? _ _ _ = conflict at h
      cases name with
      | some name => cases h
      | none =>
        cases conflict with
        | some problem => cases h
        | none =>
          -- What is written out has a location, and a reference has none.
          have hdeclared := ends_compile _ _ _ _ h
          rw [declared?_property] at hdeclared
          cases hdeclared

end Parameter

/-! ## Registrations -/

namespace Generation

variable {dialect : Dialect} {admitted : Definition → Prop} {generation after : Generation}

/-- A parameter is found under an identifier because a schema was registered with it, at a point
where the identifier was free. -/
structure Registration (dialect : Dialect) (admitted : Definition → Prop) (generation : Generation)
    (refId : String) (r : Schema) (registered : Fragment) : Prop where
  admits : admitted (.parameter r)
  named : r.refId? = some refId
  found : generation.parameters.get? refId = some registered
  since : ∃ before next schemas, Leads dialect admitted {} before
    ∧ before.parameters.get? refId = none
    ∧ before.step dialect (.parameter r) = .ok next
    ∧ Parameter.compile dialect r before.schemas = .ok (registered, schemas)
    ∧ Leads dialect admitted next generation

/-- A call leaves the registered parameters as they are, or it registers one under a free
identifier. -/
theorem parameters_calls (h : Calls dialect admitted generation after) :
    after.parameters = generation.parameters
      ∨ ∃ r refId new schemas, admitted (.parameter r) ∧ r.refId? = some refId
        ∧ generation.parameters.get? refId = none
        ∧ Parameter.compile dialect r generation.schemas = .ok (new, schemas)
        ∧ generation.step dialect (.parameter r) = .ok after
        ∧ after.parameters = (generation.parameters.define refId new).2 := by
  cases h with
  | site _ _ _ => exact Or.inl rfl
  | definition hadmitted hstep =>
    cases stepsTo_of_step hstep with
    | plain _ | schema _ | component _ | route _ | webhook _ _ => exact Or.inl rfl
    | parameter hact =>
      obtain ⟨new, hnew, hsame | ⟨refId, hrefId, hfree, hdefine⟩⟩ :=
        Parameter.updated_of_register hact
      · exact Or.inl hsame
      · exact Or.inr ⟨_, refId, new, _, hadmitted, hrefId, hfree, hnew, hstep, hdefine⟩

theorem Calls.parameters_le (h : Calls dialect admitted generation after) :
    generation.parameters ≤ after.parameters := by
  rcases parameters_calls h with hsame | ⟨_, refId, new, _, _, _, _, _, _, hdefine⟩
  · rw [hsame]
  · rw [hdefine]
    exact Store.le_define _ refId new

/-- Every parameter that is found in a reachable state has a registration. -/
theorem Leads.registration (h : Leads dialect admitted {} generation) {refId : String}
    {registered : Fragment} (hfound : generation.parameters.get? refId = some registered) :
    ∃ r, Registration dialect admitted generation refId r registered := by
  induction h with
  | refl => cases hfound
  | @tail mid generation hmid hcall ih =>
    cases hbefore : mid.parameters.get? refId with
    | some old =>
      have hkept := Store.get?_of_le hcall.parameters_le hbefore
      cases hkept.symm.trans hfound
      obtain ⟨r, hr⟩ := ih hbefore
      obtain ⟨before, next, schemas, hstart, hfree, hstep, hcompile, hlater⟩ := hr.since
      exact ⟨r, hr.admits, hr.named, hfound, before, next, schemas, hstart, hfree, hstep, hcompile,
        hlater.tail hcall⟩
    | none =>
      rcases parameters_calls hcall with hsame | ⟨r, own, new, schemas, hadmits,
        hown, hfree, hnew, hstep, hdefine⟩
      · rw [hsame, hbefore] at hfound
        cases hfound
      · rw [hdefine, Store.get?_define, hbefore, Option.none_or] at hfound
        split at hfound
        · rename_i hsame
          cases hfound
          subst hsame
          exact ⟨r, hadmits, hown, by rw [hdefine, Store.get?_define, hbefore, if_pos rfl, Option.none_or],
            mid, _, schemas, hmid, hfree, hstep, hnew, .refl⟩
        · cases hfound

end Generation

/-! ## References and expansions -/

/-- A property that is answered with a reference, at any point of a generation, refers to what was
compiled for the schema that was registered under its identifier, and is required as that schema
says; written out, it is required as its own schema says. So the two agree just in case both
schemas say the same. Where neither of them states it, that is whether both accept neither null nor
a missing value; and under a stack of wrappers around the registered schema, that no wrapper accepts
more of a schema that is required. -/
theorem referenced_requiredness {dialect : Dialect} {admitted : Definition → Prop}
    {generation : Generation} (h : Generation.Leads dialect admitted {} generation)
    {location : Location} {key refId : String} {s : Schema} {store after : Store Fragment}
    (hanswer : Parameter.ofProperty dialect generation.parameters location key s store
      = .ok (Reference.toParameter refId, after)) :
    ∃ r registered, Generation.Registration dialect admitted generation refId r registered
      ∧ s.refId? = some refId
      ∧ Entries.get? registered "required" = some r.requiredValue
      ∧ (∀ store' expanded after',
          Parameter.ofProperty dialect {} location key s store' = .ok (expanded, after') →
            Entries.get? expanded "required" = some s.requiredValue
              ∧ (Entries.get? registered "required" = Entries.get? expanded "required"
                ↔ r.requiredValue = s.requiredValue))
      ∧ (r.statedRequired? = none → s.statedRequired? = none →
          r.requiredValue = .bool r.isRequired ∧ s.requiredValue = .bool s.isRequired
            ∧ (r.requiredValue = s.requiredValue ↔ r.isRequired = s.isRequired)
            ∧ ∀ wrappers, s = Schema.wrapAll wrappers r →
              (r.requiredValue = s.requiredValue
                ↔ (r.isRequired = true → ∀ w ∈ wrappers, w.Demanding))) := by
  obtain ⟨own, registered, hown, hfound, hreference, _⟩ :=
    Parameter.of_reference?_some (Parameter.reference?_of_ofProperty hanswer)
  cases Reference.toParameter_inj hreference
  obtain ⟨r, hr⟩ := h.registration hfound
  obtain ⟨before, next, schemas, _, _, _, hcompile, _⟩ := hr.since
  have hrequired := Parameter.ends_required_compile r _ _ _ hcompile
  refine ⟨r, registered, hr, hown, hrequired, fun store' expanded after' hexpanded => ?_,
    fun hr hs => ?_⟩
  · have hown := Parameter.ends_required_inPlace location key s store' expanded after' hexpanded
    refine ⟨hown, ?_⟩
    rw [hrequired, hown, Option.some.injEq]
  · have hrvalue := Schema.requiredValue_of_unstated hr
    have hsvalue := Schema.requiredValue_of_unstated hs
    have hagree : r.requiredValue = s.requiredValue ↔ r.isRequired = s.isRequired := by
      rw [hrvalue, hsvalue, Json.bool.injEq]
    refine ⟨hrvalue, hsvalue, hagree, fun wrappers hwrapped => ?_⟩
    rw [hagree, hwrapped]
    exact Schema.isRequired_wrapAll_eq_iff wrappers r

/-- A refined use of a required parameter refers to it, and would be required written out. -/
theorem refined_use_of_required :
    let page := ((Schema.ofKind (.string [])).named "Page").parameter
      { name := some "page", location := some .query }
    ∃ generation after registered expanded after',
      Generation.Leads .types (fun _ => True) {} generation
      ∧ Parameter.ofProperty .types generation.parameters .query "page" page.refine {}
        = .ok (Reference.toParameter "Page", after)
      ∧ Parameter.ofProperty .types {} .query "page" page.refine {} = .ok (expanded, after')
      ∧ (∃ r, Generation.Registration .types (fun _ => True) generation "Page" r registered
        ∧ (Entries.get? registered "required" = Entries.get? expanded "required"
          ↔ r.requiredValue = page.refine.requiredValue))
      ∧ Entries.get? registered "required" = some (.bool true)
      ∧ Entries.get? expanded "required" = some (.bool true) := by
  intro page
  have hleads {generation : Generation}
      (hstep : Generation.step .types {} (.parameter page) = .ok generation) :
      Generation.Leads .types (fun _ => True) {} generation :=
    .single (.definition trivial hstep)
  have hagree {generation : Generation} {registered expanded : Fragment}
      {after after' : Store Fragment}
      (hstep : Generation.step .types {} (.parameter page) = .ok generation)
      (hfound : generation.parameters.get? "Page" = some registered)
      (hanswer : Parameter.ofProperty .types generation.parameters .query "page" page.refine {}
        = .ok (Reference.toParameter "Page", after))
      (hexpanded : Parameter.ofProperty .types {} .query "page" page.refine {}
        = .ok (expanded, after')) :
      ∃ r, Generation.Registration .types (fun _ => True) generation "Page" r registered
        ∧ (Entries.get? registered "required" = Entries.get? expanded "required"
          ↔ r.requiredValue = page.refine.requiredValue) := by
    obtain ⟨r, other, hr, _, _, hinPlace, _⟩ := referenced_requiredness (hleads hstep) hanswer
    cases hr.found.symm.trans hfound
    exact ⟨r, hr, (hinPlace _ _ _ hexpanded).2⟩
  exact ⟨_, _, _, _, _, hleads rfl, rfl, rfl, hagree rfl rfl rfl rfl, rfl, rfl⟩

/-- An optional use of a required parameter refers to it, and would not be required written out. -/
theorem optional_use_of_required :
    let page := ((Schema.ofKind (.string [])).named "Page").parameter
      { name := some "page", location := some .query }
    ∃ generation after registered expanded after',
      Generation.Leads .types (fun _ => True) {} generation
      ∧ Parameter.ofProperty .types generation.parameters .query "page" page.optional {}
        = .ok (Reference.toParameter "Page", after)
      ∧ generation.parameters.get? "Page" = some registered
      ∧ Parameter.ofProperty .types {} .query "page" page.optional {} = .ok (expanded, after')
      ∧ Entries.get? registered "required" = some (.bool true)
      ∧ Entries.get? expanded "required" = some (.bool false) := by
  intro page
  have hleads (generation : Generation)
      (hstep : Generation.step .types {} (.parameter page) = .ok generation) :
      Generation.Leads .types (fun _ => True) {} generation :=
    .single (.definition trivial hstep)
  exact ⟨_, _, _, _, _, hleads _ rfl, rfl, rfl, rfl, rfl, rfl⟩

end OpenApi
