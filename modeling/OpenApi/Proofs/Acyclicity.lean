/-
# OpenApi.Proofs.Acyclicity -- named schemas refer only to schemas that were named before them

A fragment is stored when everything below its schema has been compiled, and what it refers to
was in stock by then. So the order in which schemas were named is an order of their references:
no named schema refers to itself, directly or through others. Names are written once, and what is
stored under them are objects: no key stands in them twice, and none with the value null.

This holds at every point of a generation, not only in the end. `Generation.Calls` is one call
that may be made of a generation: that a whole definition is compiled, or that only a site is,
which is what goes on within a definition. `Generation.Leads` is any sequence of successful calls.

Discriminators may also be given by callers, as document keys that are copied as they are. Their
mappings may lead anywhere, and are excepted.
-/
import Mathlib.Logic.Relation
import OpenApi.Proofs.OperationTree
import OpenApi.Proofs.ReferenceClosure

namespace OpenApi

/-! ## Stored fragments are objects without nulls -/

/-- An object of a document: no key stands in it twice, and none with the value null. -/
structure Fragment.Proper (fragment : Fragment) : Prop where
  distinct : (Entries.keys fragment).Nodup
  nonNull : ∀ e ∈ fragment, e.2.isNull = false

theorem Fragment.proper_overlay {body : Fragment} (h : (Entries.keys body).Nodup)
    (keys : Fragment) : (Fragment.overlay body keys).Proper where
  distinct := Entries.nodup_keys_filter (Entries.nodup_keys_extend h keys) _
  nonNull e he := by simpa using (List.mem_filter.mp he).2

/-- Every stored fragment is an object of a document. -/
def Store.Proper (store : Store Fragment) : Prop := ∀ e ∈ store.entries, Fragment.Proper e.2

theorem Store.Proper.define {store : Store Fragment} (h : store.Proper) (name : String)
    {value : Fragment} (hv : value.Proper) : (store.define name value).2.Proper := by
  cases hn : store.get? name with
  | some old => simpa [Store.define_of_get?_some value hn] using h
  | none =>
    rw [Store.define_of_get?_none value hn]
    intro e he
    rcases List.mem_append.mp he with he | he
    · exact h e he
    · rw [List.mem_singleton.mp he]
      exact hv

theorem Fragment.mem_withDefault {fragment : Fragment} {default : Option Json} {e : String × Json}
    (h : e ∈ withDefault fragment default) : e.1 = "default" ∨ e ∈ fragment := by
  unfold withDefault at h
  split at h
  · split at h
    · exact Or.inr h
    · exact (Entries.mem_insert h).imp_left (congrArg Prod.fst)
  · exact Or.inr h

section Keys

variable (dialect : Dialect) (nullable : Bool) (default : Option Json)

theorem Fragment.nodup_keys_withDefault {fragment : Fragment} (h : (Entries.keys fragment).Nodup) :
    (Entries.keys (Fragment.withDefault fragment default)).Nodup := by
  cases default with
  | none => exact h
  | some value =>
    unfold withDefault
    dsimp only
    split
    · exact h
    · exact Entries.nodup_keys_insert h _ _

theorem Fragment.nodup_keys_referenceWith (refId : String) (delta : Fragment) :
    (Entries.keys (Fragment.referenceWith refId delta)).Nodup := by
  unfold Fragment.referenceWith
  split <;> exact List.nodup_singleton _

theorem Dialect.nodup_keys_typeKeys (type : Option Json) :
    (Entries.keys (dialect.typeKeys type nullable)).Nodup := by
  cases dialect <;> cases type <;> cases nullable <;>
    simp [typeKeys, Entries.insertSome, Entries.insert, Entries.keys]

namespace Shape

theorem nodup_keys_objectFragment (properties : Fragment) (required : List String)
    (additional : Option Json) :
    (Entries.keys
      (objectFragment dialect nullable default properties required additional)).Nodup := by
  have htyped := Fragment.nodup_keys_withDefault default
    (dialect.nodup_keys_typeKeys nullable (some (.string "object")))
  have hshaped := Entries.nodup_keys_insert htyped "properties" (.object properties)
  unfold objectFragment
  dsimp only
  apply Entries.nodup_keys_insertSome
  split
  · exact hshaped
  · exact Entries.nodup_keys_insert hshaped _ _

theorem nodup_keys_arrayFragment (items : Json) (least most : Option Nat) :
    (Entries.keys (arrayFragment dialect nullable items least most)).Nodup := by
  apply Entries.nodup_keys_insertSome
  apply Entries.nodup_keys_insertSome
  apply Entries.nodup_keys_insert
  exact dialect.nodup_keys_typeKeys nullable _

theorem nodup_keys_oneOfFragment (options : List Json) (discriminator : Option Json) :
    (Entries.keys (oneOfFragment dialect nullable options discriminator)).Nodup := by
  unfold oneOfFragment
  split
  · exact List.nodup_singleton _
  · apply Entries.nodup_keys_insertSome
    exact List.nodup_singleton _

theorem nodup_keys_allOfFragment (parts : List Json) :
    (Entries.keys (allOfFragment dialect nullable parts)).Nodup := by
  unfold allOfFragment
  dsimp only
  split <;> exact List.nodup_singleton _

/-- What a shape becomes repeats no key, if what is compiled in place does not. -/
theorem ends_nodup_compile (shape : Shape)
    (inlined : ∀ c, shape = .inline c →
      Compile.Ends (fun answer => (Entries.keys answer).Nodup) (c.compile dialect .fragment)) :
    Compile.Ends (fun body => (Entries.keys body).Nodup)
      (shape.compile dialect nullable default) := by
  cases shape with
  | null =>
    rw [compile]
    exact .pure (by cases dialect <;> exact List.nodup_singleton _)
  | anything =>
    rw [compile]
    exact .pure (dialect.nodup_keys_typeKeys nullable none)
  | scalar type checks keys =>
    rw [compile]
    apply Compile.Ends.pure
    apply Fragment.nodup_keys_withDefault
    apply Entries.nodup_keys_extend
    apply Entries.nodup_keys_extend
    exact dialect.nodup_keys_typeKeys nullable _
  | object members =>
    rw [compile]
    exact .after fun _ => .after fun _ => .pure (nodup_keys_objectFragment ..)
  | extension members refId parent base baseRequired =>
    rw [compile]
    exact .after fun _ => .after fun _ => .after fun _ => .after fun _ =>
      .pure (List.nodup_singleton _)
  | array element least most =>
    rw [compile]
    exact .after fun _ =>
      .pure (Fragment.nodup_keys_withDefault _ (nodup_keys_arrayFragment ..))
  | tuple items =>
    rw [compile]
    exact .after fun _ => .pure (nodup_keys_arrayFragment ..)
  | anyOf options =>
    rw [compile]
    exact .after fun _ => .pure (Fragment.nodup_keys_withDefault _ (List.nodup_singleton _))
  | oneOf options discriminator =>
    rw [compile]
    refine .after fun compiled => ?_
    have hwritten (nullable : Bool) (telling : Option Json) := Fragment.nodup_keys_withDefault
      default (nodup_keys_oneOfFragment dialect nullable compiled telling)
    split
    · exact .pure (hwritten _ _)
    · cases discriminator with
      | ok telling => exact .pure (hwritten _ _)
      | error problem => exact .fail problem
  | allOf parts =>
    rw [compile]
    exact .after fun _ =>
      .pure (Fragment.nodup_keys_withDefault _ (nodup_keys_allOfFragment ..))
  | dictionary value =>
    rw [compile]
    refine .after fun _ => .pure (Fragment.nodup_keys_withDefault _ ?_)
    apply Entries.nodup_keys_insert
    exact dialect.nodup_keys_typeKeys nullable _
  | inline site =>
    rw [compile]
    exact inlined site rfl
  | invalid problem =>
    rw [compile]
    exact .fail problem

end Shape

end Keys

namespace Site

variable {dialect : Dialect}

theorem ends_nodup_body (t : Site) (beside : Bool)
    (inlined : ∀ c ∈ t.children, t.shape = .inline c →
      Compile.Ends (fun answer => (Entries.keys answer).Nodup) (c.compile dialect .fragment)) :
    Compile.Ends (fun body => (Entries.keys body).Nodup) (t.body dialect beside) := by
  cases hover : t.override? with
  | some type =>
    rw [body_of_override beside hover]
    apply Compile.Ends.pure
    split
    · exact dialect.nodup_keys_typeKeys t.nullable _
    · exact List.nodup_singleton _
  | none =>
    rw [body_of_shape beside hover]
    rw [children_eq hover] at inlined
    refine Shape.ends_nodup_compile dialect t.nullable t.default t.shape fun c hc => ?_
    refine inlined c ?_ hc
    rw [hc]
    exact List.mem_cons_self

/-- The answer for a site repeats no key. -/
theorem ends_nodup_compile (t : Site) (reply : Reply) :
    Compile.Ends (fun answer => (Entries.keys answer).Nodup) (t.compile dialect reply) := by
  induction t using Site.induction generalizing reply with
  | step t ih =>
    have hbody (beside : Bool) : Compile.Ends _ (t.body dialect beside) :=
      ends_nodup_body t beside fun c hc _ => ih c hc .fragment
    intro store answer after h
    cases compile_eq_ok_iff.mp h with
    | retyped _ _ _ => exact List.nodup_singleton _
    | reused _ _ _ _ => exact Fragment.nodup_keys_referenceWith _ _
    | unnamed _ hend => exact (Fragment.proper_overlay (hbody false _ _ _ hend) _).distinct
    | taken _ _ hend _ => exact (Fragment.proper_overlay (hbody false _ _ _ hend) _).distinct
    | stored _ _ hmid _ =>
      split
      · exact List.nodup_singleton _
      · exact (Fragment.proper_overlay (hbody false _ _ _ hmid) _).distinct

/-- Compiling a site stores objects of a document only. -/
theorem moves_proper (t : Site) (reply : Reply) :
    Compile.Moves (Store.Preserves Store.Proper) (t.compile dialect reply) := by
  refine moves_compile_of_defines (Store.Preserves.refl _) (Store.Preserves.trans _) t reply ?_
  intro u _ name _ store body mid hbody hmid
  have hnodup := ends_nodup_body u false (fun c _ _ => c.ends_nodup_compile .fragment) _ _ _ hbody
  exact hmid.define name (Fragment.proper_overlay hnodup _)

end Site

/-! ## Points of a generation -/

/-- A well-formed definition that brings no mappings into the document but those allowed for. -/
structure Definition.Sound (supplied : Fragment → Prop) (d : Definition) : Prop where
  wellFormed : d.WellFormed
  supplies : d.Supplies supplied

namespace Generation

/-- A successful call of a generation: a whole definition is compiled, or a site is that compiling
an admitted schema visits. Between two visits of a run a generation is where the sites that were
compiled by then have led. -/
inductive Calls (dialect : Dialect) (admitted : Definition → Prop) (generation : Generation) :
    Generation → Prop
  | definition {d : Definition} {after : Generation} :
      admitted d → generation.step dialect d = .ok after →
      Calls dialect admitted generation after
  | site {s : Schema} {t : Site} {reply : Reply} {answer : Fragment} {schemas : Store Fragment} :
      admitted (.plain s) → s.site.Reaches t →
      t.compile dialect reply generation.schemas = .ok (answer, schemas) →
      Calls dialect admitted generation { generation with schemas := schemas }

/-- Any sequence of successful calls leads from one state of a generation to another. -/
def Leads (dialect : Dialect) (admitted : Definition → Prop) : Generation → Generation → Prop :=
  Relation.ReflTransGen (Calls dialect admitted)

variable {dialect : Dialect} {admitted : Definition → Prop} {generation after : Generation}

section Moves

variable {R : Store Fragment → Store Fragment → Prop} (refl : ∀ store, R store store)
  (trans : ∀ first second third, R first second → R second third → R first third)

include refl trans

section Schemas

variable {P : Schema → Prop} (hereditary : Schema.Hereditary P)
  (sites : ∀ s, P s → ∀ t, s.site.Reaches t → ∀ reply, Compile.Moves R (t.compile dialect reply))
  (given : ∀ d, admitted d → ∀ s ∈ d.schemas, P s)

include hereditary sites given

/-- A call moves the named schemas only by compiling sites that admitted schemas visit, and those of
schemas made of parts of them. -/
theorem Calls.moves_of_schemas (h : Calls dialect admitted generation after) :
    R generation.schemas after.schemas := by
  cases h with
  | definition hd hstep =>
    exact moves_stepsTo_of_schemas refl trans hereditary (fun s hs => sites s hs s.site (.refl _))
      (given _ hd) (stepsTo_of_step hstep)
  | site hd hreaches hact =>
    exact sites _ (given _ hd _ List.mem_cons_self) _ hreaches _ _ _ _ hact

theorem Leads.moves_of_schemas (h : Leads dialect admitted generation after) :
    R generation.schemas after.schemas := by
  induction h with
  | refl => exact refl _
  | tail _ hcall ih =>
    exact trans _ _ _ ih (hcall.moves_of_schemas refl trans hereditary sites given)

end Schemas

/-- Calls move the named schemas only by compiling sites. -/
theorem Leads.moves
    (sites : ∀ (t : Site) (reply : Reply), Compile.Moves R (t.compile dialect reply))
    (h : Leads dialect admitted generation after) : R generation.schemas after.schemas :=
  h.moves_of_schemas refl trans Schema.hereditary_true (fun _ _ t _ => sites t)
    fun _ _ _ _ => trivial

end Moves

/-- Calls only add to the named schemas. -/
theorem Leads.schemas_le (h : Leads dialect admitted generation after) :
    generation.schemas ≤ after.schemas :=
  h.moves le_refl (fun _ _ _ => le_trans) fun t reply => t.grows_compile reply

theorem Leads.unique (h : Leads dialect admitted generation after) :
    generation.schemas.Unique → after.schemas.Unique := by
  refine h.moves (Store.Preserves.refl _) (Store.Preserves.trans _) fun t reply => ?_
  refine t.moves_compile (Store.Preserves.refl _) (Store.Preserves.trans _) reply ?_
  exact fun name _ _ value h => h.define name value

theorem Leads.proper (h : Leads dialect admitted generation after) :
    generation.schemas.Proper → after.schemas.Proper :=
  h.moves (Store.Preserves.refl _) (Store.Preserves.trans _) fun t reply => t.moves_proper reply

/-- One call keeps a generation to the law of references. -/
theorem Obeys.calls {supplied : Fragment → Prop}
    (h : generation.Obeys (referenceLaw supplied))
    (hcall : Calls dialect (Definition.Sound supplied) generation after) :
    after.Obeys (referenceLaw supplied) := by
  have lawful := referenceLaw_lawful supplied dialect
  cases hcall with
  | definition hd hstep =>
    exact h.step lawful (fun _ => trivial) (hd.wellFormed.admits_of_supplies hd.supplies) (stepsTo_of_step hstep)
  | @site s t reply answer schemas hd hreaches hact =>
    have haccepts := (hd.wellFormed.admits_of_supplies hd.supplies).schemas s List.mem_cons_self
    have hcompiles : (referenceLaw supplied).Compiles generation.parameters dialect t := by
      refine Law.compiles lawful t (fun u hu => ?_) fun u _ => referenceLaw_fills supplied u
      exact Schema.wired_of_reaches lawful.keys_nil haccepts.linked haccepts.lists haccepts.given
        (hreaches.trans hu)
    exact (h.of_keeps lawful (hcompiles generation.schemas _) hact).1

theorem Leads.obeys {supplied : Fragment → Prop}
    (h : Leads dialect (Definition.Sound supplied) generation after)
    (obeys : generation.Obeys (referenceLaw supplied)) : after.Obeys (referenceLaw supplied) := by
  induction h with
  | refl => exact obeys
  | tail _ hcall ih => exact ih.calls hcall

end Generation

/-! ## References between named schemas -/

/-- A fragment refers to a named schema: by `$ref`, or by a target in the mapping of a
discriminator, unless the mapping was supplied by a caller. -/
def Fragment.RefersTo (supplied : Fragment → Prop) (fragment : Fragment) (target : String) : Prop :=
  (Json.object fragment).Holds "$ref" (.string (Reference.schemaPath target))
    ∨ ∃ members mapping, (Json.object fragment).Holds "discriminator" (.object members)
      ∧ ("mapping", .object mapping) ∈ members ∧ ¬ supplied mapping
      ∧ ∃ value, (value, Json.string (Reference.schemaPath target)) ∈ mapping

/-- The fragment stored under one name refers to another name. -/
def Store.Refers (supplied : Fragment → Prop) (store : Store Fragment) (name target : String) :
    Prop :=
  ∃ fragment, store.get? name = some fragment ∧ fragment.RefersTo supplied target

/-- Every fragment is an object under a name of its own, and refers to names only that were
stored before it. -/
structure Store.Ordered (supplied : Fragment → Prop) (store : Store Fragment) : Prop where
  unique : store.Unique
  proper : store.Proper
  before : ∀ earlier name fragment later, store.entries = earlier ++ (name, fragment) :: later →
    ∀ target, fragment.RefersTo supplied target → target ∈ Entries.keys earlier

variable {supplied : Fragment → Prop} {store : Store Fragment}

/-- What a sealed fragment refers to is in stock. -/
theorem Law.Sealed.contains_of_refersTo {stock : Stock} {fragment : Fragment} {target : String}
    (h : (referenceLaw supplied).Sealed stock fragment) (hr : fragment.RefersTo supplied target) :
    stock.schemas.contains target = true := by
  have hclosed : (referenceLaw supplied).Closed stock (.object fragment) :=
    Json.everywhere_object.mpr ⟨⟨trivial, fun e he => ⟨(h.seals e he).1, (h.seals e he).2.1⟩⟩, h.closed⟩
  rcases hr with ⟨members, hin, hmem⟩ | ⟨members, mapping, ⟨whole, hin, hmem⟩, hmapping, hfree, e, he⟩
  · rcases ((hclosed members hin).2 _ hmem).1 _ rfl with ⟨name, hname, hpath⟩ | ⟨name, _, hpath⟩
    · rw [Reference.path_inj hpath]
      exact hname
    · exact absurd hpath (Reference.schemaPath_ne_parameterPath target name)
  · rcases ((hclosed whole hin).2 _ hmem).2 members mapping rfl hmapping with hgiven | hmaps
    · exact absurd hgiven hfree
    · obtain ⟨name, hname, htarget⟩ := hmaps _ he
      rw [Reference.path_inj (Json.string.inj htarget)]
      exact hname

theorem Store.ordered_of_settled {registered : Store Fragment} (unique : store.Unique)
    (proper : store.Proper) (h : (referenceLaw supplied).Settled registered store) :
    store.Ordered supplied where
  unique := unique
  proper := proper
  before _ _ _ _ hsplit _ hr :=
    Entries.contains_iff_mem_keys.mp ((h _ _ _ hsplit).contains_of_refersTo hr)

namespace Store.Ordered

/-- A target stands before every name that refers to it. -/
theorem idxOf_lt (h : store.Ordered supplied) {name target : String}
    (hr : store.Refers supplied name target) :
    (Entries.keys store.entries).idxOf target < (Entries.keys store.entries).idxOf name := by
  obtain ⟨fragment, hget, hrefers⟩ := hr
  obtain ⟨earlier, later, hsplit⟩ := List.append_of_mem (Entries.mem_of_get? hget)
  have htarget : target ∈ Entries.keys earlier := h.before _ _ _ _ hsplit target hrefers
  have hkeys : Entries.keys store.entries
      = Entries.keys earlier ++ name :: Entries.keys later := by
    simp [hsplit, Entries.keys]
  have hfresh : name ∉ Entries.keys earlier := by
    have hnodup : (Entries.keys store.entries).Nodup := h.unique
    rw [hkeys] at hnodup
    exact fun hmem => (List.nodup_append.mp hnodup).2.2 name hmem name List.mem_cons_self rfl
  rw [hkeys, List.idxOf_append_of_mem htarget, List.idxOf_append_of_notMem hfresh]
  have hlt := List.idxOf_lt_length_of_mem htarget
  omega

/-- No name leads back to itself. -/
theorem acyclic (h : store.Ordered supplied) (name : String) :
    ¬ Relation.TransGen (store.Refers supplied) name name := by
  have hlt {name target : String} (hr : Relation.TransGen (store.Refers supplied) name target) :
      (Entries.keys store.entries).idxOf target < (Entries.keys store.entries).idxOf name := by
    induction hr with
    | single hr => exact h.idxOf_lt hr
    | tail _ hr ih => exact Nat.lt_trans (h.idxOf_lt hr) ih
  exact fun hr => Nat.lt_irrefl _ (hlt hr)

end Store.Ordered

/-- At every point of a generation from well-formed definitions, each named schema is an object
without nulls that refers only to schemas named before it, so that no name leads back to itself;
and whatever is called from there on, every named schema stays as it is, in its place. Mappings
that callers supplied are excepted. -/
theorem components_acyclic {dialect : Dialect} {supplied : Fragment → Prop} {generation : Generation}
    (h : Generation.Leads dialect (Definition.Sound supplied) {} generation) :
    generation.schemas.Ordered supplied
      ∧ (∀ name, ¬ Relation.TransGen (generation.schemas.Refers supplied) name name)
      ∧ ∀ admitted later, Generation.Leads dialect admitted generation later →
          generation.schemas.entries <+: later.schemas.entries
            ∧ ∀ name fragment, generation.schemas.get? name = some fragment →
                later.schemas.get? name = some fragment := by
  have hordered : generation.schemas.Ordered supplied := by
    apply Store.ordered_of_settled
    · exact h.unique List.nodup_nil
    · exact h.proper fun e he => absurd he List.not_mem_nil
    · exact (h.obeys Generation.obeys_empty).schemas
  refine ⟨hordered, hordered.acyclic, fun admitted later hlater => ?_⟩
  exact ⟨hlater.schemas_le, fun _ _ hget => Store.get?_of_le hlater.schemas_le hget⟩

/-- An object and a string in it, both named: the string is named first, and the object refers
to it. -/
theorem part_named_before_whole :
    let part := (Schema.ofKind (.string [])).named "Y"
    let whole := (Schema.object [("p", part)]).named "X"
    ∃ generation, Generation.Leads .types (Definition.Sound fun _ => False) {} generation
      ∧ Generation.step .types {} (.schema whole) = .ok generation
      ∧ Entries.keys generation.schemas.entries = ["Y", "X"]
      ∧ generation.schemas.Refers (fun _ => False) "X" "Y"
      ∧ generation.schemas.Ordered (fun _ => False) := by
  intro part whole
  have hpart : ∀ t, part.Contains t → t = part := by
    intro t ht
    rcases Schema.contains_iff.mp ht with h | ⟨c, hc, _⟩
    · exact h
    · cases hc
  have hwhole : ∀ t, whole.Contains t → t = whole ∨ t = part := by
    intro t ht
    rcases Schema.contains_iff.mp ht with h | ⟨c, hc, hct⟩
    · exact Or.inl h
    · rw [List.mem_singleton.mp hc] at hct
      exact Or.inr (hpart t hct)
  have hgives : ∀ value, ¬ (Definition.schema whole).Gives value := by
    rintro value (hvalue | ⟨s, hs, t, ht, hvalue⟩)
    · cases hvalue
    · rw [List.mem_singleton.mp hs] at ht
      rcases hwhole t ht with rfl | rfl <;> cases hvalue
  have hsound : Definition.Sound (fun _ => False) (.schema whole) := by
    refine ⟨⟨?_, fun value hvalue => absurd hvalue (hgives value)⟩,
      fun value hvalue => absurd hvalue (hgives value)⟩
    intro s hs t ht link hlink
    rw [List.mem_singleton.mp hs] at ht
    rcases hwhole t ht with rfl | rfl <;> cases hlink
  have hleads (generation : Generation)
      (hstep : Generation.step .types {} (.schema whole) = .ok generation) :
      Generation.Leads .types (Definition.Sound fun _ => False) {} generation :=
    .single (.definition hsound hstep)
  refine ⟨_, hleads _ rfl, rfl, rfl, ⟨_, rfl, Or.inl ?_⟩, (components_acyclic (hleads _ rfl)).1⟩
  refine ⟨Reference.toSchema "Y", ?_, List.mem_cons_self⟩
  refine .member (e := ("properties", _)) (List.mem_cons_of_mem _ List.mem_cons_self) ?_
  exact .member (e := ("p", _)) List.mem_cons_self .self

/-- A string whose document keys bring a discriminator that maps to the string itself. The keys
are copied as they are, so the named schema refers to itself, if that mapping counts. -/
theorem supplied_mapping_to_itself :
    let mapping : Fragment := [("a", .string (Reference.schemaPath "X"))]
    let discriminator : Json := .object [("propertyName", .string "k"), ("mapping", .object mapping)]
    let s := ((Schema.ofKind (.string [])).named "X").annotate
      { fields := [("discriminator", discriminator)] }
    ∃ generation, Generation.Leads .types (Definition.Sound fun _ => True) {} generation
      ∧ Generation.step .types {} (.schema s) = .ok generation
      ∧ generation.schemas.get? "X"
          = some [("type", .string "string"), ("discriminator", discriminator)]
      ∧ generation.schemas.Refers (fun _ => False) "X" "X"
      ∧ ¬ generation.schemas.Ordered (fun _ => False) := by
  intro mapping discriminator s
  have hcontains : ∀ t, s.Contains t → t = s := by
    intro t ht
    rcases Schema.contains_iff.mp ht with h | ⟨c, hc, _⟩
    · exact h
    · cases hc
  have hclean : Json.Everywhere (fun members => ∀ path, ("$ref", .string path) ∉ members)
      (.object [("discriminator", discriminator)]) := by
    simp [Json.everywhere_object, Json.everywhere_string, discriminator, mapping]
  have hsound : Definition.Sound (fun _ => True) (.schema s) := by
    refine ⟨⟨?_, ?_⟩, fun _ _ _ _ => trivial⟩
    · intro u hu t ht link hlink
      rw [List.mem_singleton.mp hu] at ht
      rw [hcontains t ht] at hlink
      cases hlink
    · rintro value (hvalue | ⟨u, hu, t, ht, hvalue⟩) path ⟨members, hin, hmem⟩
      · cases hvalue
      · rw [List.mem_singleton.mp hu] at ht
        rw [hcontains t ht] at hvalue
        rw [List.mem_singleton.mp hvalue] at hin
        exact hclean members hin path hmem
  have hrefers {generation : Generation} (hget : generation.schemas.get? "X"
      = some [("type", .string "string"), ("discriminator", discriminator)]) :
      generation.schemas.Refers (fun _ => False) "X" "X" := by
    refine ⟨_, hget, Or.inr ⟨[("propertyName", .string "k"), ("mapping", .object mapping)], mapping,
      ⟨_, .self, ?_⟩, List.mem_cons_of_mem _ List.mem_cons_self, id, "a", List.mem_cons_self⟩⟩
    exact List.mem_cons_of_mem _ List.mem_cons_self
  refine ⟨_, .single (.definition hsound rfl), rfl, rfl, hrefers rfl, fun hordered => ?_⟩
  exact hordered.acyclic "X" (.single (hrefers rfl))

end OpenApi
