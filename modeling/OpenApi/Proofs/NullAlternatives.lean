/-
# OpenApi.Proofs.NullAlternatives -- how many alternatives of a union offer null

Of exclusive alternatives one only may accept a value. Where a discriminated union accepts null, an
alternative for null is put after its options, and an option that accepts null itself is left as it is.
So null is offered once by the union, and once more by each option that offers it
(`Schema.alternatives_offering_null`).

`Json.offersNull` is what a fragment of the dialect with null types says: by its type, or by one of its own
alternatives. Only the schemas that these come from matter to it, `Schema.Alternates`; what stands in the
properties of an object may be called and described as it likes.
-/
import OpenApi.Proofs.Discriminators
import OpenApi.Proofs.Nullability

namespace OpenApi

/-! ## Values that offer null -/

namespace Json

/-- Whether a type is null, or lists null. -/
def namesNull : Json → Bool
  | .string name => name == "null"
  | .array names => names.any fun
    | .string name => name == "null"
    | _ => false
  | _ => false

mutual

/-- Whether a value offers null: its type does, or one of its alternatives. -/
def offersNull : Json → Bool
  | .object members =>
    ((Entries.get? members "type").map namesNull).getD false
      || keyOffersNull "anyOf" members || keyOffersNull "oneOf" members
  | _ => false

/-- Whether one of the alternatives under a key offers null. -/
def keyOffersNull (key : String) : List (String × Json) → Bool
  | [] => false
  | (k, .array alternatives) :: rest =>
    if k = key then someOffersNull alternatives else keyOffersNull key rest
  | (k, _) :: rest => if k = key then false else keyOffersNull key rest

/-- Whether one of the values offers null. -/
def someOffersNull : List Json → Bool
  | [] => false
  | value :: rest => offersNull value || someOffersNull rest

end

theorem someOffersNull_eq (values : List Json) : someOffersNull values = values.any offersNull := by
  induction values with
  | nil => rfl
  | cons first rest ih => rw [someOffersNull, ih, List.any_cons]

theorem keyOffersNull_eq (key : String) (members : Fragment) :
    keyOffersNull key members = match Entries.get? members key with
      | some (.array alternatives) => alternatives.any offersNull
      | _ => false := by
  induction members with
  | nil => rfl
  | cons first rest ih =>
    obtain ⟨k, value⟩ := first
    rw [Entries.get?]
    by_cases hk : k = key
    · cases value <;> simp [keyOffersNull, hk, someOffersNull_eq]
    · cases value <;> simp [keyOffersNull, hk, ih]

theorem offersNull_object (members : Fragment) :
    (object members).offersNull
      = (((Entries.get? members "type").map namesNull).getD false
        || (match Entries.get? members "anyOf" with
          | some (.array alternatives) => alternatives.any offersNull
          | _ => false)
        || match Entries.get? members "oneOf" with
          | some (.array alternatives) => alternatives.any offersNull
          | _ => false) := by
  rw [offersNull, keyOffersNull_eq, keyOffersNull_eq]

theorem offersNull_nullFragment : (object Dialect.types.nullFragment).offersNull = true := by decide

/-- What equals the fragment that stands for null offers null. -/
theorem offersNull_of_same {value : Json}
    (h : value.same (.object Dialect.types.nullFragment) = true) : value.offersNull = true := by
  cases value with
  | object members =>
    obtain ⟨found, rfl, hfound⟩ := same_single h
    cases found with
    | string name => simpa [offersNull_object, Entries.get?, namesNull, same] using hfound
    | _ => cases hfound
  | _ => cases h

end Json

theorem Fragment.SameMarks.offersNull {fragment fragment' : Fragment} (h : fragment.SameMarks fragment') :
    (Json.object fragment).offersNull = (Json.object fragment').offersNull := by
  rw [Json.offersNull_object, Json.offersNull_object, h "type" (by decide), h "anyOf" (by decide),
    h "oneOf" (by decide)]

/-! ## Fragments that offer null -/

/-- A fragment offers null or not, and goes on doing so when its null values are left out. -/
structure Fragment.Offers (offers : Bool) (fragment : Fragment) : Prop where
  clear : fragment.Clear
  offered : (Json.object fragment).offersNull = offers

namespace Fragment.Offers

variable {offers : Bool} {fragment fragment' : Fragment}

theorem of_sameMarks (h : fragment.Offers offers) (hsame : fragment'.SameMarks fragment) :
    fragment'.Offers offers :=
  ⟨h.clear.of_sameMarks hsame, hsame.offersNull.trans h.offered⟩

theorem withDefault (h : fragment.Offers offers) (default : Option Json) :
    (Fragment.withDefault fragment default).Offers offers :=
  h.of_sameMarks (.withDefault fragment default)

end Fragment.Offers

namespace Shape

variable (nullable : Bool) (default : Option Json)

theorem offers_typeKeys {type : String} (h : type ≠ "null") :
    Fragment.Offers nullable (Dialect.types.typeKeys (some (.string type)) nullable) := by
  refine ⟨Dialect.clear_typeKeys nullable (by simp), ?_⟩
  cases nullable <;> simp [Dialect.typeKeys, Json.offersNull_object, Entries.get?, Json.namesNull, h]

theorem offers_anything {nullable : Bool} :
    Fragment.Offers false (Dialect.types.typeKeys none nullable) :=
  ⟨Dialect.clear_typeKeys nullable (by simp), rfl⟩

/-- Alternatives under a key of their own offer null just in case one of them does. -/
theorem offers_alternatives {key : String} (hkey : key = "anyOf" ∨ key = "oneOf")
    {alternatives : List Json} {offers : Bool} (h : alternatives.any Json.offersNull = offers) :
    Fragment.Offers offers [(key, .array alternatives)] := by
  refine ⟨Fragment.clear_single (by simp), ?_⟩
  rcases hkey with rfl | rfl <;> simp [Json.offersNull_object, Entries.get?, h]

theorem any_withNull (alternatives : List Json) (missing : Bool) :
    (Dialect.types.withNull alternatives missing).any Json.offersNull
      = (alternatives.any Json.offersNull || missing) := by
  cases missing <;> simp [Dialect.withNull, Json.offersNull_nullFragment]

theorem offers_anyOfFragment {options : List Json}
    (h : nullable = false → options.any Json.offersNull = false) :
    (anyOfFragment .types nullable options).Offers nullable := by
  refine offers_alternatives (Or.inl rfl) ?_
  rw [any_withNull]
  cases nullable with
  | false => rw [h rfl, Bool.false_and, Bool.or_false]
  | true =>
    -- Null is put after the options unless it is among them, and then one of them offers it.
    cases hamong : (Json.object Dialect.types.nullFragment).isAmong options with
    | false => exact Bool.or_true _
    | true =>
      obtain ⟨option, hoption, hsame⟩ := List.any_eq_true.mp hamong
      rw [List.any_eq_true.mpr ⟨option, hoption, Json.offersNull_of_same hsame⟩, Bool.true_or]

theorem offers_oneOfFragment {options : List Json} (discriminator : Option Json)
    (h : nullable = false → options.any Json.offersNull = false) :
    (oneOfFragment .types nullable options discriminator).Offers nullable := by
  cases nullable with
  | true =>
    refine offers_alternatives (Or.inr rfl) ?_
    rw [any_withNull, Bool.or_true]
  | false =>
    have hoptions : Fragment.Offers false [("oneOf", .array options)] :=
      offers_alternatives (Or.inr rfl) (h rfl)
    exact hoptions.of_sameMarks (.insertSome _ (by decide) discriminator)

theorem offers_allOfFragment (parts : List Json) :
    (allOfFragment .types nullable parts).Offers nullable := by
  cases nullable with
  | true =>
    refine offers_alternatives (Or.inl rfl) ?_
    rw [any_withNull, Bool.or_true]
  | false =>
    have hparts : (Json.object [("allOf", .array parts)]).offersNull = false := by
      simp [Json.offersNull_object, Entries.get?]
    exact ⟨Fragment.clear_single (by simp), hparts⟩

theorem get?_oneOf {dialect : Dialect} {compiled : List Json} (telling : Option Json) :
    Entries.get? (Fragment.withDefault (oneOfFragment dialect nullable compiled telling) default) "oneOf"
      = some (.array (dialect.withNull compiled nullable)) := by
  rw [Fragment.get?_withDefault_of_ne default (by decide)]
  cases nullable with
  | true => rfl
  | false => cases telling <;> rfl

/-- What has to be known of a shape, and of the sites that its alternatives come from, for it to offer null
where it is asked to. -/
def Forthright (nullable : Bool) : Shape → Prop
  | null => nullable = true
  | anyOf options | oneOf options _ => nullable = false → ∀ c ∈ options,
      Compile.Ends (Fragment.Offers false) (c.compile .types .reference)
  | anything | extension .. | inline _ => False
  | _ => True

/-- What sites are compiled to in order offers null as their answers do. -/
theorem ends_map_offersNull {α : Type} {site : α → Site} {offers : α → Bool} {xs : List α}
    (h : ∀ x ∈ xs, Compile.Ends (Fragment.Offers (offers x)) ((site x).compile .types .reference)) :
    Compile.Ends (fun compiled => compiled.map Json.offersNull = xs.map offers)
      (compileAll .types (xs.map site)) := by
  induction xs with
  | nil =>
    rw [List.map_nil, List.map_nil, compileAll]
    exact .pure rfl
  | cons first rest ih =>
    rw [List.map_cons, List.map_cons, compileAll]
    refine (h first List.mem_cons_self).bind fun answer hanswer => ?_
    refine (ih fun x hx => h x (List.mem_cons_of_mem _ hx)).bind fun values hvalues => .pure ?_
    rw [List.map_cons, hanswer.offered, hvalues]

theorem ends_none_offered {sites : List Site}
    (h : ∀ c ∈ sites, Compile.Ends (Fragment.Offers false) (c.compile .types .reference)) :
    Compile.Ends (fun compiled => compiled.any Json.offersNull = false) (compileAll .types sites) := by
  intro store compiled after hrun
  rw [← List.map_id sites] at hrun
  have hmap : compiled.map Json.offersNull = sites.map fun _ => false :=
    ends_map_offersNull h store compiled after hrun
  have hid := congrArg (List.any · id) hmap
  simpa [List.any_map] using hid

/-- A forthright shape offers null where it is asked to. -/
theorem ends_offers {shape : Shape} (forthright : shape.Forthright nullable)
    (wired : shape.Wired False fun _ => True) :
    Compile.Ends (Fragment.Offers nullable) (shape.compile .types nullable default) := by
  have typed {type : String} (h : type ≠ "null") {body : Fragment}
      (hbody : body.SameMarks (Dialect.types.typeKeys (some (.string type)) nullable)) :
      body.Offers nullable := (offers_typeKeys nullable h).of_sameMarks hbody
  have hobject : "object" ≠ "null" := by decide
  have harray : "array" ≠ "null" := by decide
  cases shape with
  | null =>
    rw [compile, show nullable = true from forthright]
    exact .pure ⟨Fragment.clear_single (by simp), Json.offersNull_nullFragment⟩
  | scalar type checks keys =>
    rw [compile]
    exact .pure (typed (ne_null_of_mem_typeNames wired.1)
      (sameMarks_scalarFragment nullable default type checks fun e he => (wired.2.2 e he).1))
  | object members =>
    rw [compile]
    exact .after fun _ => .after fun _ =>
      .pure (typed hobject (sameMarks_objectFragment nullable default _ _ _))
  | array element least most =>
    rw [compile]
    exact .after fun _ =>
      .pure (.withDefault (typed harray (sameMarks_arrayFragment nullable _ _ _)) default)
  | tuple items =>
    rw [compile]
    exact .after fun _ => .pure (typed harray (sameMarks_arrayFragment nullable _ _ _))
  | anyOf options =>
    rw [compile]
    intro store body after h
    obtain ⟨compiled, mid, hcompiled, h⟩ := Compile.of_bind_ok h
    rw [(Compile.of_pure_ok h).1]
    refine .withDefault (offers_anyOfFragment nullable fun hnullable => ?_) default
    exact ends_none_offered (forthright hnullable) store compiled mid hcompiled
  | oneOf options discriminator =>
    intro store body after h
    obtain ⟨compiled, telling, hcompiled, rfl⟩ := exists_compileAll_of_oneOf h
    refine .withDefault (offers_oneOfFragment nullable telling fun hnullable => ?_) default
    exact ends_none_offered (forthright hnullable) store compiled after hcompiled
  | allOf parts =>
    rw [compile]
    exact .after fun compiled => .pure (.withDefault (offers_allOfFragment nullable compiled) default)
  | dictionary value =>
    rw [compile]
    exact .after fun _ =>
      .pure (.withDefault (typed hobject (sameMarks_dictionaryFragment nullable _)) default)
  | invalid problem =>
    rw [compile]
    exact .fail problem
  | anything | extension _ _ _ _ _ | inline _ => exact forthright.elim

end Shape

namespace Schema

/-! ## Schemas that alternatives come from -/

/-- The schemas under a node whose alternatives are alternatives of the node. -/
def Kind.alternates : Kind Schema → List Schema
  | .union options => options
  | .discriminatedUnion _ options => options
  | .effects inner => [inner]
  | .optional inner => [inner]
  | .nullable inner => [inner]
  | .default inner _ => [inner]
  | .branded inner _ => [inner]
  | .readonly inner => [inner]
  | .pipeline input _ => [input]
  | _ => []

/-- A schema that alternatives of another one come from. -/
inductive Alternates : Schema → Schema → Prop
  | refl (s : Schema) : Alternates s s
  | step {s c t : Schema} : c ∈ s.kind.alternates → Alternates c t → Alternates s t

/-- None of the schemas that alternatives come from has an identifier, a link to an extended object, or
document keys. -/
def Unlabelled (s : Schema) : Prop :=
  ∀ t, s.Alternates t → ∀ label, t.label = some label → label.Blank

theorem Kind.mem_alternates_of_wrapped? {kind : Kind Schema} {inner : Schema}
    (h : kind.wrapped? = some inner) : inner ∈ kind.alternates := by
  cases kind <;> cases h <;> exact List.mem_singleton_self _

theorem Kind.mem_schemas_of_alternate {kind : Kind Schema} {c : Schema} (h : c ∈ kind.alternates) :
    c ∈ kind.schemas := by
  cases kind with
  | pipeline input output =>
    rw [List.mem_singleton.mp h]
    exact List.mem_cons_self
  | union options | discriminatedUnion name options | effects inner | optional inner | nullable inner
  | default inner value | branded inner brand | readonly inner => exact h
  | _ => cases h

theorem alternates_core (s : Schema) : s.Alternates s.core := by
  induction s using induction with
  | step s ih =>
    cases hwrapped : s.kind.wrapped? with
    | none =>
      rw [core_of_not_wrapped hwrapped]
      exact .refl s
    | some inner =>
      rw [core_of_wrapped? hwrapped]
      exact .step (Kind.mem_alternates_of_wrapped? hwrapped)
        (ih inner (List.mem_append_left _ (Kind.mem_schemas_of_wrapped? hwrapped)))

namespace Unlabelled

variable {s : Schema}

theorem of_alternate (h : s.Unlabelled) {c : Schema} (hc : c ∈ s.kind.alternates) : c.Unlabelled :=
  fun t ht => h t (.step hc ht)

theorem visible (h : s.Unlabelled) {label : Label Schema} (hlabel : s.visibleLabel = some label) :
    label.Blank := by
  rcases Option.or_eq_some_iff.mp hlabel with hown | ⟨_, hcore⟩
  · exact h s (.refl s) label hown
  · exact h s.core (alternates_core s) label hcore

/-- A schema without labels is answered with what its shape becomes. -/
theorem ends_site (h : s.Unlabelled) {offers : Bool} (hshape : Compile.Ends (Fragment.Offers offers)
      ((s.shape false).compile .types s.isNullable (s.default?.or s.inputDefault?))) (reply : Reply) :
    Compile.Ends (Fragment.Offers offers) (s.site.compile .types reply) := by
  intro store answer after hrun
  have hkeys := documentKeys_of_blank fun _ => h.visible
  have untyped : s.typeOverride? = none := by
    cases htype : s.typeOverride? with
    | none => rfl
    | some type => exact absurd (hkeys _ (Entries.mem_of_get? htype)) (by simp)
  obtain ⟨body, hbody, rfl⟩ := answer_of_shape (refId?_of_blank fun _ => h.visible) untyped hrun
  have hoffers := hshape _ _ _ hbody
  refine hoffers.of_sameMarks (hoffers.clear.sameMarks_overlay fun e he => ?_)
  rw [hkeys e he]
  decide

end Unlabelled

/-! ## What schemas offer -/

/-- Whether any value is accepted, under all wrappers and pipelines. -/
def acceptsAnything : Schema → Bool
  | node .any _ _ => true
  | node .unknown _ _ => true
  | node (.optional inner) _ _ => acceptsAnything inner
  | node (.nullable inner) _ _ => acceptsAnything inner
  | node (.default inner _) _ _ => acceptsAnything inner
  | node (.branded inner _) _ _ => acceptsAnything inner
  | node (.readonly inner) _ _ => acceptsAnything inner
  | node (.effects inner) _ _ => acceptsAnything inner
  | node (.pipeline input _) _ _ => acceptsAnything input
  | _ => false

/-- Whether what a schema is compiled to offers null: the schema that is compiled accepts it, and does not
accept it along with any other value. -/
def offersNull (s : Schema) : Bool := s.stated.isNullable && !s.acceptsAnything

theorem offersNull_of_strict {s : Schema} (h : s.isNullable = false) : s.offersNull = false := by
  unfold offersNull
  cases hstated : s.stated.isNullable with
  | false => rfl
  | true => exact absurd (isNullable_of_stated hstated) (by simp [h])

theorem strict_of_anyNullable {options : List Schema} (h : anyNullable options = false) {option : Schema}
    (hoption : option ∈ options) : option.isNullable = false := by
  cases hnull : option.isNullable with
  | false => rfl
  | true => exact absurd (anyNullable_iff.mpr ⟨option, hoption, hnull⟩) (by simp [h])

/-- What a shape of a schema offers null for: what is compiled in place speaks for itself, and anything
else for the place that it is compiled at. -/
def offersAt (piped nullable : Bool) (s : Schema) : Bool :=
  ((s.inPlace? piped).map isNullable).getD nullable && !s.acceptsAnything

theorem offersAt_self (s : Schema) : offersAt false s.isNullable s = s.offersNull := by
  unfold offersAt offersNull stated
  cases s.inPlace? false <;> rfl

/-- What a schema is compiled to offers null as the schema does: its shape, which may be compiled where null
is accepted besides, by a wrapper around it; its site; and the alternatives that it adds to a union. -/
structure Outspoken (s : Schema) : Prop where
  shape : ∀ piped nullable default, (s.isNullable = true → nullable = true) →
    Compile.Ends (Fragment.Offers (offersAt piped nullable s))
      ((s.shape piped).compile .types nullable default)
  site : ∀ reply, Compile.Ends (Fragment.Offers s.offersNull) (s.site.compile .types reply)
  alternatives : s.isNullable = false → ∀ c ∈ s.alternatives (s.shape false),
    Compile.Ends (Fragment.Offers false) (c.compile .types .reference)

section Outspoken

variable {s : Schema}

theorem forthright_alternatives {options : List Schema} (below : ∀ option ∈ options, option.Outspoken)
    (strict : anyNullable options = false) :
    ∀ c ∈ optionSites options, Compile.Ends (Fragment.Offers false) (c.compile .types .reference) := by
  intro c hc
  rw [optionSites_eq] at hc
  obtain ⟨option, hoption, hc⟩ := List.mem_flatMap.mp hc
  exact (below option hoption).alternatives (strict_of_anyNullable strict hoption) c hc

theorem forthright_sites {options : List Schema} (below : ∀ option ∈ options, option.Outspoken)
    (strict : anyNullable options = false) :
    ∀ c ∈ sites options, Compile.Ends (Fragment.Offers false) (c.compile .types .reference) := by
  intro c hc
  rw [sites_eq] at hc
  obtain ⟨option, hoption, rfl⟩ := List.mem_map.mp hc
  have hsite := (below option hoption).site .reference
  rwa [offersNull_of_strict (strict_of_anyNullable strict hoption)] at hsite

/-- The alternatives of a union are those of its options; any other schema stands for itself. -/
theorem ends_alternatives
    (site : Compile.Ends (Fragment.Offers s.offersNull) (s.site.compile .types .reference))
    (below : ∀ c ∈ s.kind.alternates, c.Outspoken) (strict : s.isNullable = false) :
    ∀ c ∈ s.alternatives (s.shape false),
      Compile.Ends (Fragment.Offers false) (c.compile .types .reference) := by
  rw [offersNull_of_strict strict] at site
  intro c hc
  obtain ⟨kind, description, label⟩ := s
  cases kind with
  | union options =>
    rw [shape] at hc
    rw [isNullable] at strict
    exact forthright_alternatives below strict c hc
  | nullable inner => simp [isNullable] at strict
  | _ =>
    rw [List.mem_singleton.mp hc]
    exact site

/-- The shape of a schema offers null as the schema does, if the schemas do that its alternatives come
from. -/
theorem ends_shape (unlabelled : s.Unlabelled) (below : ∀ c ∈ s.kind.alternates, c.Outspoken)
    (piped nullable : Bool) (default : Option Json) (loose : s.isNullable = true → nullable = true) :
    Compile.Ends (Fragment.Offers (offersAt piped nullable s))
      ((s.shape piped).compile .types nullable default) := by
  have unlinked : s.link? = none := link?_of_blank (unlabelled s (.refl s))
  have hwired : (s.shape piped).Wired False fun _ => True :=
    wired_shape trivial s False.elim (fun _ _ _ _ _ _ => trivial) piped
  -- A shape that says itself whether it accepts null, neither compiled in place nor open to any value.
  have spoken (hoffers : offersAt piped nullable s = nullable)
      (forthright : (s.shape piped).Forthright nullable) :
      Compile.Ends (Fragment.Offers (offersAt piped nullable s))
        ((s.shape piped).compile .types nullable default) := by
    rw [hoffers]
    exact Shape.ends_offers nullable default forthright hwired
  obtain ⟨kind, description, label⟩ := s
  cases kind with
  | null =>
    refine spoken (Bool.and_true _) ?_
    rw [shape]
    exact loose (by rw [isNullable])
  | unknown | any =>
    rw [offersAt, acceptsAnything, Bool.not_true, Bool.and_false, shape, Shape.compile]
    exact .pure Shape.offers_anything
  | literal value =>
    refine spoken (Bool.and_true _) ?_
    rw [shape]
    rw [isNullable] at loose
    cases value with
    | null => exact loose rfl
    | _ => trivial
  | nativeEnum members =>
    refine spoken (Bool.and_true _) ?_
    unfold shape nativeEnumShape
    dsimp only
    split
    · trivial
    · split <;> trivial
  | object fields treatment catchall =>
    refine spoken (Bool.and_true _) ?_
    unfold shape
    dsimp only
    split
    · cases unlinked
    · trivial
  | union options =>
    refine spoken (Bool.and_true _) ?_
    rw [shape]
    rw [isNullable] at loose
    intro hnullable
    exact forthright_alternatives below (Bool.eq_false_iff.mpr fun h => by simp [loose h] at hnullable)
  | discriminatedUnion name options =>
    refine spoken (Bool.and_true _) ?_
    rw [shape]
    rw [isNullable] at loose
    intro hnullable
    exact forthright_sites below (Bool.eq_false_iff.mpr fun h => by simp [loose h] at hnullable)
  | effects inner =>
    have hinner : inner ∈ (Kind.effects inner).alternates := List.mem_singleton_self inner
    cases piped with
    | true =>
      have hoffers : offersAt true nullable (node (.effects inner) description label)
          = inner.offersNull := by
        simp [offersAt, inPlace?, acceptsAnything, offersNull, stated]
      rw [hoffers, shape, if_pos rfl, Shape.compile]
      exact (below inner hinner).site .fragment
    | false =>
      have hoffers : offersAt false nullable (node (.effects inner) description label)
          = offersAt false nullable inner := by
        simp [offersAt, inPlace?, acceptsAnything]
      rw [hoffers, shape, if_neg (by decide)]
      exact (below inner hinner).shape false nullable default (by rwa [isNullable] at loose)
  | nullable inner =>
    rw [isNullable] at loose
    rw [shape]
    exact (below inner (List.mem_singleton_self inner)).shape false nullable default fun _ => loose rfl
  | optional inner | default inner _ | branded inner _ | readonly inner =>
    rw [isNullable] at loose
    rw [shape]
    exact (below inner (List.mem_singleton_self inner)).shape false nullable default loose
  | pipeline input output =>
    rw [isNullable] at loose
    rw [shape]
    exact (below input (List.mem_singleton_self input)).shape true nullable default loose
  | _ =>
    refine spoken (Bool.and_true _) ?_
    unfold shape
    trivial

/-- Schemas without labels offer null as they accept it. -/
theorem outspoken (s : Schema) : s.Unlabelled → s.Outspoken := by
  induction s using induction with
  | step s ih =>
    intro unlabelled
    have below (c : Schema) (hc : c ∈ s.kind.alternates) : c.Outspoken :=
      ih c (List.mem_append_left _ (Kind.mem_schemas_of_alternate hc)) (unlabelled.of_alternate hc)
    have hshape := ends_shape unlabelled below
    have hsite (reply : Reply) : Compile.Ends (Fragment.Offers s.offersNull) (s.site.compile .types reply) := by
      rw [← offersAt_self]
      exact unlabelled.ends_site (hshape false s.isNullable _ id) reply
    exact ⟨hshape, hsite, ends_alternatives (hsite .reference) below⟩

end Outspoken

/-! ## Discriminated unions -/

theorem isNullable_of_core {s : Schema} (h : s.core.isNullable = true) : s.isNullable = true := by
  induction s using induction with
  | step s ih =>
    cases hwrapped : s.kind.wrapped? with
    | none => rwa [core_of_not_wrapped hwrapped] at h
    | some inner =>
      rw [core_of_wrapped? hwrapped] at h
      have hinner := ih inner (List.mem_append_left _ (Kind.mem_schemas_of_wrapped? hwrapped)) h
      obtain ⟨kind, description, label⟩ := s
      cases kind <;> cases hwrapped <;> first | exact hinner | rw [isNullable]

theorem anyNullable_of_strict {s : Schema} {name : String} {options : List Schema}
    (union : s.core.kind = .discriminatedUnion name options) (strict : s.isNullable = false) :
    anyNullable options = false := by
  refine Bool.eq_false_iff.mpr fun hany => ?_
  have hcore : s.core.isNullable = true := by rwa [eq_node_of_kind union, isNullable]
  rw [isNullable_of_core hcore] at strict
  cases strict

theorem countP_offersNull_of_strict {options : List Schema} (strict : anyNullable options = false) :
    options.countP offersNull = 0 := by
  rw [List.countP_eq_zero]
  intro option hoption hoffers
  rw [offersNull_of_strict (strict_of_anyNullable strict hoption)] at hoffers
  cases hoffers

/-- Null is offered by as many values as options offer it that they are compiled from. -/
theorem ends_countP_offersNull {options : List Schema}
    (unlabelled : ∀ option ∈ options, option.Unlabelled) :
    Compile.Ends (fun compiled => compiled.countP Json.offersNull = options.countP offersNull)
      (Shape.compileAll .types (sites options)) := by
  intro store compiled after h
  have hsites : sites options = options.map site := sites_eq options
  rw [hsites] at h
  have hmap : compiled.map Json.offersNull = options.map offersNull :=
    Shape.ends_map_offersNull
      (fun option hoption => (outspoken option (unlabelled option hoption)).site .reference)
      store compiled after h
  have hcount := congrArg (List.countP id) hmap
  rwa [List.countP_map, List.countP_map] at hcount

/-- A discriminated union over schemas without labels offers null only where it accepts it. There it does so
in an alternative of its own, beside every option that offers null as well: it is offered once only if no
option does. -/
theorem alternatives_offering_null {s : Schema} {name : String} {options : List Schema}
    (union : s.core.kind = .discriminatedUnion name options)
    (unlabelled : ∀ option ∈ options, option.Unlabelled) {default : Option Json}
    {store after : Store Fragment} {body : Fragment}
    (h : (s.shape false).compile .types s.isNullable default store = .ok (body, after)) :
    ∃ alternatives, Entries.get? body "oneOf" = some (.array alternatives)
      ∧ alternatives.countP Json.offersNull
        = (if s.isNullable then options.countP offersNull + 1 else 0)
      ∧ (s.isNullable = true → (alternatives.countP Json.offersNull = 1
          ↔ ∀ option ∈ options, option.offersNull = false)) := by
  rw [shape_of_union union] at h
  obtain ⟨compiled, telling, hcompiled, rfl⟩ := Shape.exists_compileAll_of_oneOf h
  have hcount := ends_countP_offersNull unlabelled store compiled after hcompiled
  refine ⟨_, Shape.get?_oneOf _ _ telling, ?_⟩
  cases hnullable : s.isNullable with
  | false =>
    have hnone := countP_offersNull_of_strict (anyNullable_of_strict union hnullable)
    refine ⟨?_, nofun⟩
    rw [Dialect.withNull, if_neg (by decide), hcount, hnone]
    rfl
  | true =>
    have hwithNull : (Dialect.types.withNull compiled true).countP Json.offersNull
        = options.countP offersNull + 1 := by
      rw [Dialect.withNull, if_pos rfl, List.countP_append, hcount]
      rfl
    refine ⟨hwithNull, fun _ => ?_⟩
    rw [hwithNull, Nat.add_eq_right, List.countP_eq_zero]
    simp only [Bool.not_eq_true]

theorem unlabelled_ofKind {kind : Kind Schema} (h : ∀ c ∈ kind.alternates, c.Unlabelled) :
    (ofKind kind).Unlabelled := by
  intro t ht label hlabel
  cases ht with
  | refl _ => cases hlabel
  | step hc hct => exact h _ hc t hct label hlabel

/-- Null is offered by a nullable option and by the union once more. -/
theorem null_offered_twice :
    let tagged := fun text => object [("kind", ofKind (.literal (.string text)))]
    let s := ofKind (.discriminatedUnion "kind" [(tagged "a").nullable, tagged "b"])
    s.isNullable = true
      ∧ ∃ body after alternatives, (s.shape false).compile .types s.isNullable none {} = .ok (body, after)
        ∧ Entries.get? body "oneOf" = some (.array alternatives)
        ∧ alternatives.countP Json.offersNull = 2 := by
  intro tagged s
  have htagged (text : String) : (tagged text).Unlabelled := unlabelled_ofKind fun c hc => by cases hc
  have hnullable : (tagged "a").nullable.Unlabelled :=
    unlabelled_ofKind fun c hc => List.mem_singleton.mp hc ▸ htagged "a"
  have hunlabelled : ∀ option ∈ [(tagged "a").nullable, tagged "b"], option.Unlabelled := by
    intro option hoption
    rcases List.mem_cons.mp hoption with rfl | hoption
    · exact hnullable
    · exact List.mem_singleton.mp hoption ▸ htagged "b"
  have hrun : (s.shape false).compile .types s.isNullable none {} = .ok (_, _) := rfl
  obtain ⟨alternatives, honeOf, hcount, _⟩ := alternatives_offering_null rfl hunlabelled hrun
  exact ⟨rfl, _, _, alternatives, hrun, honeOf, hcount⟩

end Schema
end OpenApi
