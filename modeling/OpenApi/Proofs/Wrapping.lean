/-
# OpenApi.Proofs.Wrapping -- what a further wrapper lets through

A look-up inspects two nodes of a schema, the topmost and the innermost one. A wrapper call
puts a node on top that carries nothing. So on the wrapped schema exactly that is visible
which the innermost node carries (`Schema.LookedUpAlike`, `Schema.visibleLabel_wrapAll`):
whatever a layer between says is lost, and a wrapper keeps what is visible on a schema just
in case the schema's own node says nothing that its innermost node does not.

For the identifier this decides whether the wrapped schema is compiled as a reuse of a
component or written out in place.
-/
import OpenApi.Proofs.SchemaTree

namespace OpenApi.Schema

/-! ## Wrapper calls -/

/-- A call that puts a wrapper around a schema. -/
inductive Wrapper where
  | optional
  | nullable
  | nullish
  | withDefault (value : Json)
  | brand (name : String)
  | readonly
  | refine

/-- What the call makes of a schema. -/
def Wrapper.wrap : Wrapper → Schema → Schema
  | optional, s => s.optional
  | nullable, s => s.nullable
  | nullish, s => s.nullish
  | withDefault value, s => s.withDefault value
  | brand name, s => s.brand name
  | readonly, s => s.readonly
  | refine, s => s.refine

/-- What a stack of calls makes of a schema. The first of them is called last. -/
def wrapAll (wrappers : List Wrapper) (s : Schema) : Schema := wrappers.foldr Wrapper.wrap s

theorem label_wrap (w : Wrapper) (s : Schema) : (w.wrap s).label = none := by
  cases w <;> rfl

theorem description_wrap (w : Wrapper) (s : Schema) : (w.wrap s).description = none := by
  cases w <;> rfl

theorem core_wrap (w : Wrapper) (s : Schema) : (w.wrap s).core = s.core := by
  cases w with
  | nullish =>
    show (node (.optional (node (.nullable s) none none)) none none).core = s.core
    rw [core, core]
  | optional | nullable | withDefault value | brand name | readonly | refine =>
    unfold Wrapper.wrap
    exact core_of_wrapped? rfl

theorem core_wrapAll (wrappers : List Wrapper) (s : Schema) :
    (wrapAll wrappers s).core = s.core := by
  induction wrappers with
  | nil => rfl
  | cons w rest ih =>
    show (w.wrap (wrapAll rest s)).core = s.core
    rw [core_wrap, ih]

/-- Wrappers are left out of what a schema is settled to. -/
theorem shape_core (s : Schema) : s.core.shape false = s.shape false := by
  induction s using induction with
  | step s ih =>
    cases hwrapped : s.kind.wrapped? with
    | none => rw [core_of_not_wrapped hwrapped]
    | some inner =>
      rw [core_of_wrapped? hwrapped,
        ih inner (List.mem_append_left _ (Kind.mem_schemas_of_wrapped? hwrapped))]
      obtain ⟨kind, description, label⟩ := s
      cases kind <;> cases hwrapped <;> rfl

/-! ## What is visible on a wrapped schema -/

section Visible

variable (w : Wrapper) (wrappers : List Wrapper) (s : Schema)

theorem visibleLabel_core : s.core.visibleLabel = s.core.label := by
  rw [visibleLabel, core_core]
  cases s.core.label <;> rfl

theorem visibleDescription_core : s.core.visibleDescription = s.core.description := by
  rw [visibleDescription, core_core]
  cases s.core.description <;> rfl

theorem visibleLabel_wrapAll : (wrapAll (w :: wrappers) s).visibleLabel = s.core.label := by
  show (w.wrap (wrapAll wrappers s)).visibleLabel = s.core.label
  rw [visibleLabel, label_wrap, core_wrap, core_wrapAll]
  rfl

theorem visibleDescription_wrapAll :
    (wrapAll (w :: wrappers) s).visibleDescription = s.core.description := by
  show (w.wrap (wrapAll wrappers s)).visibleDescription = s.core.description
  rw [visibleDescription, description_wrap, core_wrap, core_wrapAll]
  rfl

end Visible

/-! ## Schemas that are looked up alike -/

/-- Every look-up gives the same for both: the identifier, the whole identity with the link to
an extended object, the document keys with the parameter data, and the same for a schema that
is used as a parameter. -/
structure LookedUpAlike (s t : Schema) : Prop where
  refId : s.refId? = t.refId?
  identity : s.identity? = t.identity?
  metadata : s.metadata = t.metadata
  parameterMetadata : s.parameterMetadata = t.parameterMetadata

namespace LookedUpAlike

variable {s t u : Schema}

theorem of_visible (label : s.visibleLabel = t.visibleLabel)
    (description : s.visibleDescription = t.visibleDescription) : LookedUpAlike s t where
  refId := by rw [refId?, refId?, identity?, identity?, label]
  identity := by rw [identity?, identity?, label]
  metadata := by
    unfold Schema.metadata
    rw [ownMetadata?, ownMetadata?, label, description]
  parameterMetadata := by
    unfold Schema.parameterMetadata
    rw [ownMetadata?, ownMetadata?, label, description]

theorem symm (h : LookedUpAlike s t) : LookedUpAlike t s :=
  ⟨h.refId.symm, h.identity.symm, h.metadata.symm, h.parameterMetadata.symm⟩

theorem trans (h : LookedUpAlike s t) (h' : LookedUpAlike t u) : LookedUpAlike s u :=
  ⟨h.refId.trans h'.refId, h.identity.trans h'.identity, h.metadata.trans h'.metadata,
    h.parameterMetadata.trans h'.parameterMetadata⟩

end LookedUpAlike

theorem alike_core_wrapAll (w : Wrapper) (wrappers : List Wrapper) (s : Schema) :
    LookedUpAlike (wrapAll (w :: wrappers) s) s.core := by
  apply LookedUpAlike.of_visible
  · rw [visibleLabel_wrapAll, visibleLabel_core]
  · rw [visibleDescription_wrapAll, visibleDescription_core]

/-- The own node of a schema says nothing that the innermost node does not say as well. -/
structure AddsNothing (s : Schema) : Prop where
  label : s.label = none ∨ s.label = s.core.label
  description : s.description = none ∨ s.description = s.core.description

theorem AddsNothing.alike_core {s : Schema} (h : s.AddsNothing) : LookedUpAlike s.core s := by
  apply LookedUpAlike.of_visible
  · rw [visibleLabel_core, visibleLabel]
    rcases h.label with hl | hl
    · rw [hl]
      rfl
    · rw [hl]
      cases s.core.label <;> rfl
  · rw [visibleDescription_core, visibleDescription]
    rcases h.description with hd | hd
    · rw [hd]
      rfl
    · rw [hd]
      cases s.core.description <;> rfl

/-- The identifier on a node itself. -/
def ownRefId? (s : Schema) : Option String := (s.label.bind (·.identity)).bind (·.refId)

theorem refId?_core (s : Schema) : s.core.refId? = s.core.ownRefId? := by
  rw [refId?, identity?, visibleLabel_core, ownRefId?]

/-- The innermost node has the identifier that is visible just in case the topmost node has no
label, or has the same identifier in it. -/
theorem refId?_core_eq_iff (s : Schema) :
    s.core.refId? = s.refId? ↔ s.label = none ∨ s.ownRefId? = s.core.ownRefId? := by
  rw [refId?_core]
  cases hlabel : s.label with
  | none =>
    have hvisible : s.refId? = s.core.ownRefId? := by
      rw [refId?, identity?, visibleLabel, hlabel, ownRefId?]
      rfl
    rw [hvisible]
    exact ⟨fun _ => Or.inl rfl, fun _ => rfl⟩
  | some label =>
    have hvisible : s.refId? = s.ownRefId? := by
      rw [refId?, identity?, visibleLabel, ownRefId?, hlabel]
      rfl
    rw [hvisible]
    constructor
    · intro h
      exact Or.inr h.symm
    · rintro (h | h)
      · cases h
      · exact h.symm

/-! ## Reuse -/

theorem refId_site (s : Schema) : s.site.refId = s.refId? := rfl

/-- What is visible on a schema under further wrappers is what is visible on its innermost node.
So wrappers keep what is visible on the schema just in case it is visible on the innermost node
as well, which is so wherever the topmost node adds nothing; and they keep the identifier just in
case the topmost node has no label or has the identifier of the innermost one. Where they keep
it, the wrapped schema is compiled as a reuse of the component; where the innermost node has
none, the wrapped schema is written out in place. -/
theorem wrapped_lookups (w : Wrapper) (wrappers : List Wrapper) (s : Schema) :
    LookedUpAlike (wrapAll (w :: wrappers) s) s.core
      ∧ (LookedUpAlike (wrapAll (w :: wrappers) s) s ↔ LookedUpAlike s.core s)
      ∧ (s.AddsNothing → LookedUpAlike (wrapAll (w :: wrappers) s) s)
      ∧ ((wrapAll (w :: wrappers) s).refId? = s.refId?
          ↔ s.label = none ∨ s.ownRefId? = s.core.ownRefId?)
      ∧ ∀ dialect reply store name stored answer after,
          s.refId? = some name → store.get? name = some stored →
          (wrapAll (w :: wrappers) s).site.compile dialect reply store = .ok (answer, after) →
            (s.label = none ∨ s.ownRefId? = s.core.ownRefId? →
                ∃ delta, answer = Fragment.referenceWith name delta)
              ∧ (s.core.ownRefId? = none →
                ∃ body, (wrapAll (w :: wrappers) s).site.body dialect false store
                    = .ok (body, after)
                  ∧ answer = Fragment.overlay body (wrapAll (w :: wrappers) s).documentKeys) := by
  have halike := alike_core_wrapAll w wrappers s
  have hrefId : (wrapAll (w :: wrappers) s).refId? = s.refId?
      ↔ s.label = none ∨ s.ownRefId? = s.core.ownRefId? := by
    rw [halike.refId]
    exact refId?_core_eq_iff s
  refine ⟨halike, ⟨halike.symm.trans, halike.trans⟩, fun h => halike.trans h.alike_core, hrefId, ?_⟩
  intro dialect reply store name stored answer after hname hstored h
  constructor
  · intro hkept
    exact Site.answer_of_stored ((refId_site _).trans ((hrefId.mpr hkept).trans hname)) hstored h
  · intro hnone
    exact Site.answer_of_unnamed ((refId_site _).trans (halike.refId.trans ((refId?_core s).trans hnone))) h

/-- An identifier on the layer between two wrappers is lost. -/
theorem named_between_wrappers :
    let s := (optional (ofKind (.string []))).named "X"
    s.refId? = some "X" ∧ ¬ LookedUpAlike (wrapAll [.nullable] s) s := by
  refine ⟨rfl, fun h => ?_⟩
  have hrefId := ((wrapped_lookups .nullable [] _).2.2.2.1.mp h.refId)
  rcases hrefId with h | h <;> cases h

end OpenApi.Schema
