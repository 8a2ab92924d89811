/-
# OpenApi.Proofs.Defaults -- where a default value is written

A default is looked up on the wrappers of a schema and handed down to what is compiled under them. Not
everything that is compiled has a place for it: null, any value and a tuple are written without one, an
extension keeps it from its topmost keys, and what is compiled in place for the input of a pipeline is
compiled as if there were none. `Schema.takesDefault` says which nodes have a place, and
`Schema.deciding` which node of a schema it is that counts. Wherever there is a place the default stands
in the fragment, whatever wrappers are around it.
-/
import OpenApi.Proofs.Acyclicity
import OpenApi.Proofs.Composition

namespace OpenApi

/-! ## Fragments with a default -/

namespace Fragment

variable {fragment : Fragment}

theorem get?_withDefault_self {value : Json} (h : value.isNull = false) :
    Entries.get? (withDefault fragment (some value)) "default" = some value := by
  rw [withDefault, h]
  exact Entries.get?_insert_self _ _ _

theorem get?_withDefault_of_ne (default : Option Json) {key : String} (h : key ≠ "default") :
    Entries.get? (withDefault fragment default) key = Entries.get? fragment key := by
  unfold withDefault
  split
  · split
    · rfl
    · exact Entries.get?_insert_of_ne _ _ h
  · rfl

/-- Under a key that is not written over, a fragment has the value it had unless that is null. -/
theorem get?_overlay_of_not_mem {body written : Fragment} (distinct : (Entries.keys body).Nodup)
    {key : String} (hkey : key ∉ Entries.keys written) {value : Json} (h : value.isNull = false) :
    Entries.get? (overlay body written) key = some value ↔ Entries.get? body key = some value := by
  have hmem : (key, value) ∈ overlay body written ↔ (key, value) ∈ body := mem_overlay_iff hkey h
  have hdistinct : (Entries.keys (overlay body written)).Nodup :=
    Entries.nodup_keys_filter (Entries.nodup_keys_extend distinct written) _
  constructor
  · intro hget
    exact Entries.get?_of_mem distinct (hmem.mp (Entries.mem_of_get? hget))
  · intro hget
    exact Entries.get?_of_mem hdistinct (hmem.mpr (Entries.mem_of_get? hget))

/-- Under a key that is not written over and has no null, a fragment has what it had. -/
theorem get?_overlay_eq {body written : Fragment} (distinct : (Entries.keys body).Nodup)
    {key : String} (hkey : key ∉ Entries.keys written)
    (nonnull : ∀ value, Entries.get? body key = some value → value.isNull = false) :
    Entries.get? (overlay body written) key = Entries.get? body key := by
  refine Option.ext fun value => ?_
  cases hnull : value.isNull with
  | false => exact get?_overlay_of_not_mem distinct hkey hnull
  | true =>
    refine iff_of_false (fun h => ?_) fun h => ?_
    · have hkept := (List.mem_filter.mp (Entries.mem_of_get? h)).2
      rw [hnull] at hkept
      cases hkept
    · rw [nonnull value h] at hnull
      cases hnull

end Fragment

/-! ## Shapes with a place for a default -/

namespace Shape

/-- Whether a shape has a place for a default among its topmost keys. -/
def takesDefault : Shape → Bool
  | scalar .. | object _ | array .. | anyOf _ | oneOf .. | allOf _ | dictionary _ => true
  | _ => false

variable {dialect : Dialect} {nullable : Bool} {value : Json}

theorem get?_default_objectFragment (h : value.isNull = false) (properties : Fragment)
    (required : List String) (additional : Option Json) :
    Entries.get? (objectFragment dialect nullable (some value) properties required additional)
      "default" = some value := by
  have hshaped := Entries.get?_insert_of_ne
    (Fragment.withDefault (dialect.typeKeys (some (.string "object")) nullable) (some value))
    (.object properties) (by decide : "default" ≠ "properties")
  unfold objectFragment
  dsimp only
  rw [Entries.get?_insertSome_of_ne _ _ (by decide)]
  split
  · rw [hshaped, Fragment.get?_withDefault_self h]
  · rw [Entries.get?_insert_of_ne _ _ (by decide), hshaped, Fragment.get?_withDefault_self h]

/-- Where a shape has a place for a default, the default stands there. -/
theorem ends_default {shape : Shape} (takes : shape.takesDefault = true) (h : value.isNull = false) :
    Compile.Ends (fun body => Entries.get? body "default" = some value)
      (shape.compile dialect nullable (some value)) := by
  have written (fragment : Fragment) :
      Entries.get? (Fragment.withDefault fragment (some value)) "default" = some value :=
    Fragment.get?_withDefault_self h
  cases shape with
  | scalar type checks keys =>
    rw [compile]
    exact .pure (written _)
  | object members =>
    rw [compile]
    exact .after fun _ => .after fun _ => .pure (get?_default_objectFragment h _ _ _)
  | array element least most =>
    rw [compile]
    exact .after fun _ => .pure (written _)
  | anyOf options =>
    rw [compile]
    exact .after fun _ => .pure (written _)
  | oneOf options discriminator =>
    rw [compile]
    refine .after fun compiled => ?_
    split
    · exact .pure (written _)
    · cases discriminator with
      | ok telling => exact .pure (written _)
      | error problem => exact .fail problem
  | allOf parts =>
    rw [compile]
    exact .after fun _ => .pure (written _)
  | dictionary item =>
    rw [compile]
    exact .after fun _ => .pure (written _)
  | _ => cases takes

theorem get?_default_typeKeys (type : Option Json) :
    Entries.get? (dialect.typeKeys type nullable) "default" = none := by
  cases dialect <;> cases type <;> cases nullable <;> rfl

/-- Where a shape has no place for a default and is not compiled in place, there is no default. -/
theorem ends_no_default {shape : Shape} (takes : shape.takesDefault = false)
    (written : ∀ c, shape ≠ .inline c) (default : Option Json) :
    Compile.Ends (fun body => Entries.get? body "default" = none)
      (shape.compile dialect nullable default) := by
  cases shape with
  | null =>
    rw [compile]
    exact .pure (by cases dialect <;> rfl)
  | anything =>
    rw [compile]
    exact .pure (get?_default_typeKeys none)
  | extension members refId parent base baseRequired =>
    rw [compile]
    exact .after fun _ => .after fun _ => .after fun _ => .after fun _ => .pure rfl
  | tuple items =>
    rw [compile]
    refine .after fun _ => .pure ?_
    have hitems : "default" ≠ "items" := by decide
    have hleast : "default" ≠ "minItems" := by decide
    have hmost : "default" ≠ "maxItems" := by decide
    rw [arrayFragment, Entries.get?_insertSome_of_ne _ _ hmost,
      Entries.get?_insertSome_of_ne _ _ hleast, Entries.get?_insert_of_ne _ _ hitems]
    exact get?_default_typeKeys _
  | inline c => exact absurd rfl (written c)
  | invalid problem =>
    rw [compile]
    exact .fail problem
  | _ => cases takes

end Shape

/-! ## The node that decides -/

namespace Schema

/-- The node that decides what a schema is compiled to: what is left when all wrappers and pipelines
are taken off. An effects wrapper stays where it is the input of a pipeline. -/
def deciding (piped : Bool) : Schema → Schema
  | node (.optional inner) _ _ => deciding false inner
  | node (.nullable inner) _ _ => deciding false inner
  | node (.default inner _) _ _ => deciding false inner
  | node (.branded inner _) _ _ => deciding false inner
  | node (.readonly inner) _ _ => deciding false inner
  | node (.pipeline input _) _ _ => deciding true input
  | node (.effects inner) description label =>
    if piped then node (.effects inner) description label else deciding false inner
  | s => s

/-- Whether a node is written with a default if there is one. -/
def takesDefault (s : Schema) : Bool :=
  match s.kind with
  | .null | .tuple _ | .unknown | .any | .effects _ => false
  | .literal value => !value.isNull
  | .object .. => s.link?.isNone
  | _ => true

/-- How the deciding node of a schema and the shape that the schema is settled to go together. -/
inductive Governs (decider : Schema) : Shape → Prop
  | inPlace {inner : Schema} : decider.kind = .effects inner → Governs decider (.inline inner.site)
  | invalid {problem : Problem} : Governs decider (.invalid problem)
  | written {shape : Shape} : (∀ inner, decider.kind ≠ .effects inner) →
      (∀ c, shape ≠ .inline c) → shape.takesDefault = decider.takesDefault → Governs decider shape

theorem governs_shape (s : Schema) (piped : Bool) : Governs (s.deciding piped) (s.shape piped) := by
  induction s using induction generalizing piped with
  | step s ih =>
    obtain ⟨kind, description, label⟩ := s
    have below (inner : Schema) (h : inner ∈ kind.schemas) (piped : Bool) :
        Governs (inner.deciding piped) (inner.shape piped) := ih inner (List.mem_append_left _ h) piped
    cases kind with
    | optional inner | nullable inner | default inner _ | branded inner _ | readonly inner =>
      simp only [deciding, shape]
      exact below inner (List.mem_singleton_self inner) false
    | pipeline input output =>
      simp only [deciding, shape]
      exact below input List.mem_cons_self true
    | effects inner =>
      cases piped with
      | true => exact .inPlace rfl
      | false =>
        simp only [deciding, shape]
        exact below inner (List.mem_singleton_self inner) false
    | object fields treatment catchall =>
      simp only [deciding]
      unfold shape
      dsimp only
      split
      · exact .written (by simp [Schema.kind]) (by simp [extensionShape]) rfl
      · rename_i unlinked
        refine .written (by simp [Schema.kind]) (by simp) ?_
        obtain _ | ⟨_ | ⟨own, _ | ⟨refId, parent⟩⟩, metadata⟩ := label
        · rfl
        · rfl
        · rfl
        · exact absurd rfl (unlinked _ _ _ _)
    | literal value =>
      simp only [deciding, shape]
      cases value with
      | array _ | object _ => exact .invalid
      | _ => exact .written (by simp [Schema.kind]) (by simp [literalShape]) rfl
    | nativeEnum members =>
      simp only [deciding, shape, nativeEnumShape]
      split
      · exact .written (by simp [Schema.kind]) (by simp) rfl
      · split
        · exact .written (by simp [Schema.kind]) (by simp) rfl
        · exact .invalid
    | never | void | undefined | map _ _ | set _ | promise _ =>
      simp only [deciding, shape]
      exact .invalid
    | _ =>
      simp only [deciding, shape]
      exact .written (by simp [Schema.kind]) (by simp) rfl

/-- A schema without an identifier or a type of its own is answered with what its shape becomes, under
its document keys. -/
theorem answer_of_shape {s : Schema} (unnamed : s.refId? = none) (untyped : s.typeOverride? = none)
    {dialect : Dialect} {reply : Reply} {store after : Store Fragment} {answer : Fragment}
    (h : s.site.compile dialect reply store = .ok (answer, after)) :
    ∃ body, (s.shape false).compile dialect s.isNullable (s.default?.or s.inputDefault?) store
        = .ok (body, after)
      ∧ answer = Fragment.overlay body s.documentKeys := by
  have hname : s.site.refId = none := unnamed
  have hoverride : s.site.override? = none := untyped
  obtain ⟨body, hbody, rfl⟩ := Site.answer_of_unnamed hname h
  rw [Site.body_of_shape false hoverride] at hbody
  exact ⟨body, hbody, rfl⟩

/-- Whether the default that is looked up on a schema reaches the document is a matter of the node that
decides what is compiled. If the node has a place for a default, the default stands there, whatever
wrappers are around it. If what is under an effects wrapper is compiled in place, there is the default
that this is written with. In all other cases there is none. -/
theorem default_kept_iff {s : Schema} {value : Json} (given : s.default? = some value)
    (nonnull : value.isNull = false) (unnamed : s.refId? = none) (untyped : s.typeOverride? = none)
    (unsaid : "default" ∉ Entries.keys s.documentKeys) {dialect : Dialect} {reply : Reply}
    {store after : Store Fragment} {answer : Fragment}
    (h : s.site.compile dialect reply store = .ok (answer, after)) :
    Entries.get? answer "default" = some value
      ↔ (s.deciding false).takesDefault = true
        ∨ ∃ inner fragment, (s.deciding false).kind = .effects inner
          ∧ inner.site.compile dialect .fragment store = .ok (fragment, after)
          ∧ Entries.get? fragment "default" = some value := by
  obtain ⟨body, hbody, rfl⟩ := answer_of_shape unnamed untyped h
  have hdistinct : (Entries.keys body).Nodup :=
    Shape.ends_nodup_compile _ _ _ _ (fun c _ => c.ends_nodup_compile .fragment) _ _ _ hbody
  rw [Fragment.get?_overlay_of_not_mem hdistinct unsaid nonnull]
  rw [given, Option.some_or] at hbody
  have hgoverns := s.governs_shape false
  generalize s.shape false = shape at hbody hgoverns
  cases hgoverns with
  | inPlace hkind =>
    rw [Shape.compile] at hbody
    constructor
    · intro hget
      exact Or.inr ⟨_, body, hkind, hbody, hget⟩
    · rintro (htakes | ⟨inner, fragment, hinner, hfragment, hget⟩)
      · rw [takesDefault, hkind] at htakes
        cases htakes
      · cases hkind.symm.trans hinner
        cases hbody.symm.trans hfragment
        exact hget
  | invalid =>
    rw [Shape.compile] at hbody
    cases hbody
  | written hnot hwritten htakes =>
    rw [← htakes]
    cases hplace : shape.takesDefault with
    | true => exact iff_of_true (Shape.ends_default hplace nonnull _ _ _ hbody) (Or.inl rfl)
    | false =>
      rw [Shape.ends_no_default hplace hwritten _ _ _ _ hbody]
      refine iff_of_false (Option.some_ne_none value).symm ?_
      rintro (h | ⟨inner, _, hinner, _⟩)
      · cases h
      · exact hnot inner hinner

/-- A default is written on an array, and lost on a tuple. -/
theorem tuple_default_dropped :
    let text := ofKind (.string [])
    let value := Json.array [.string "a"]
    let listed := ((array text).withDefault value).optional
    let paired := ((ofKind (.tuple [text])).withDefault value).optional
    let items : Fragment := [("type", .string "array"), ("items", .object [("type", .string "string")])]
    listed.site.compile .types .reference {} = .ok (items ++ [("default", value)], {})
      ∧ Entries.get? (items ++ [("default", value)]) "default" = some value
      ∧ paired.site.compile .types .reference {}
        = .ok (items ++ [("minItems", .nat 1), ("maxItems", .nat 1)], {})
      ∧ Entries.get? (items ++ [("minItems", .nat 1), ("maxItems", .nat 1)]) "default" ≠ some value := by
  intro text value listed paired items
  have hlisted : listed.site.compile .types .reference {}
      = .ok (items ++ [("default", value)], {}) := rfl
  have hpaired : paired.site.compile .types .reference {}
      = .ok (items ++ [("minItems", .nat 1), ("maxItems", .nat 1)], {}) := rfl
  have hlistedKeys : "default" ∉ Entries.keys listed.documentKeys := List.not_mem_nil
  have hpairedKeys : "default" ∉ Entries.keys paired.documentKeys := List.not_mem_nil
  refine ⟨hlisted, ?_, hpaired, fun h => ?_⟩
  · exact (default_kept_iff rfl rfl rfl rfl hlistedKeys hlisted).mpr (Or.inl rfl)
  · rcases (default_kept_iff rfl rfl rfl rfl hpairedKeys hpaired).mp h with h | ⟨_, _, h, _⟩
    · cases h
    · cases h

end Schema
end OpenApi
