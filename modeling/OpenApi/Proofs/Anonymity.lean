/-
# OpenApi.Proofs.Anonymity -- schemas that leave no trace and follow none

The store is read at identifiers and written at identifiers. Where no schema of a tree has one, what
was compiled before makes no difference, and nothing is stored: the compilation is `Compile.Constant`.
This is so of returning a value and of ending with a problem, and it passes to sequences, so it passes
from the sites below a site to the site (`Site.constant_compile`).

It makes copies of such a schema equal wherever they stand, also beside each other in a tuple.
-/
import OpenApi.Proofs.Recompilation
import OpenApi.Proofs.Wrapping

namespace OpenApi

/-! ## Computations that are always the same -/

namespace Compile

/-- A computation that comes to one and the same end in every state, and leaves the state as it is. -/
def Constant {α : Type} (c : Compile α) : Prop :=
  ∃ outcome : Except Problem α, ∀ store, c store = outcome.map (·, store)

theorem sequential_constant : Sequential @Constant where
  pure a := ⟨.ok a, fun _ => rfl⟩
  fail problem := ⟨.error problem, fun _ => rfl⟩
  bind := by
    rintro α β c k ⟨outcome, hc⟩ hk
    cases outcome with
    | error problem => exact ⟨.error problem, fun store => bind_apply_error (hc store)⟩
    | ok a =>
      obtain ⟨next, hnext⟩ := hk a
      refine ⟨next, fun store => ?_⟩
      rw [bind_apply_ok (hc store)]
      exact hnext store
  mapProblem := by
    rintro α f c ⟨outcome, hc⟩
    refine ⟨outcome.mapError f, fun store => ?_⟩
    rw [mapProblem, hc]
    cases outcome <;> rfl

end Compile

/-! ## Sites without identifiers -/

namespace Site

variable {dialect : Dialect} {t : Site}

/-- A site that has no identifier, nor has any site that it visits. -/
def Anonymous (t : Site) : Prop := ∀ u, t.Reaches u → u.refId = none

theorem Anonymous.child (h : t.Anonymous) {c : Site} (hc : c ∈ t.children) : c.Anonymous :=
  fun u hu => h u (.step hc hu)

theorem compile_of_unnamed (h : t.refId = none) (reply : Reply) :
    t.compile dialect reply
      = t.body dialect false >>= fun body => pure (Fragment.overlay body t.keys) := by
  funext store
  have hfresh : t.refId.bind store.get? = none := by rw [h, Option.bind_none]
  rw [compile_of_fresh hfresh, h]
  rfl

theorem constant_compile (t : Site) (anonymous : t.Anonymous) (reply : Reply) :
    Compile.Constant (t.compile dialect reply) := by
  induction t using Site.induction generalizing reply with
  | step t ih =>
    have hbody : Compile.Constant (t.body dialect false) :=
      body_of_children Compile.sequential_constant false
        (fun c hc => ih c hc (anonymous.child hc) .reference)
        fun c hc _ => ih c hc (anonymous.child hc) .fragment
    -- Nothing is stored or looked up for the site itself, so only the sites below could do so.
    rw [compile_of_unnamed (anonymous t (.refl t))]
    exact Compile.sequential_constant.bind hbody fun body => Compile.sequential_constant.pure _

/-- What a site is answered repeats no key. -/
theorem Keyed.distinct_compile (h : t.Keyed) {reply : Reply} {store after : Store Fragment}
    {fragment : Fragment} (hcompile : t.compile dialect reply store = .ok (fragment, after)) :
    (Json.object fragment).Distinct := by
  have lawful := distinctLaw_lawful dialect
  have hkeeps : distinctLaw.Compiles {} dialect t := Law.compiles lawful t h fun _ _ _ _ => trivial
  obtain ⟨_, _, hanswer⟩ := hkeeps store reply store fragment after (le_refl store) hcompile
  exact Json.Everywhere.mono (fun _ hmembers => hmembers.1) (hanswer.1.object lawful)

end Site

/-! ## Copies -/

theorem Json.distinct_replicate {value : Json} (h : value.same value = true) (n : Nat) :
    Json.distinct (List.replicate (n + 1) value) = [value] := by
  unfold Json.distinct
  rw [List.replicate_succ, List.foldl_cons]
  show (List.replicate n value).foldl _ [value] = [value]
  induction n with
  | zero => rfl
  | succ n ih =>
    have hamong : value.isAmong [value] = true := by
      rw [Json.isAmong, List.any_cons, h, Bool.true_or]
    rw [List.replicate_succ, List.foldl_cons, if_pos hamong]
    exact ih

section Copies

variable {dialect : Dialect} {t : Site} {store : Store Fragment}

theorem Shape.compileAll_replicate {fragment : Fragment}
    (h : t.compile dialect .reference store = .ok (fragment, store)) (n : Nat) :
    Shape.compileAll dialect (List.replicate n t) store
      = .ok (List.replicate n (.object fragment), store) := by
  induction n with
  | zero =>
    rw [List.replicate_zero, compileAll]
    rfl
  | succ n ih =>
    rw [List.replicate_succ, compileAll, Compile.bind_apply_ok h, Compile.bind_apply_ok ih]
    rfl

theorem Shape.compileAll_error {problem : Problem} {rest : List Site}
    (h : t.compile dialect .reference store = .error problem) :
    Shape.compileAll dialect (t :: rest) store = .error problem := by
  rw [compileAll, Compile.bind_apply_error h]

/-- A tuple without annotations, as it is put together from the fragments of its items. -/
theorem Schema.compile_tuple (items : List Schema) (reply : Reply) :
    (ofKind (.tuple items)).site.compile dialect reply
      = Shape.compileAll dialect (items.map site) >>= fun compiled =>
          pure (Fragment.nonNull [("type", .string "array"), ("items", Shape.tupleItems compiled),
            ("minItems", .nat items.length), ("maxItems", .nat items.length)]) := by
  have hshape : (ofKind (.tuple items)).site.shape = .tuple (items.map site) :=
    congrArg Shape.tuple (sites_eq items)
  have hnullable : (ofKind (.tuple items)).site.nullable = false := rfl
  rw [Site.compile_of_unnamed rfl, Site.body_of_shape false rfl, hshape, hnullable, Shape.compile,
    bind_assoc, List.length_map]
  refine bind_congr fun compiled => ?_
  rw [pure_bind]
  cases dialect <;> rfl

end Copies

/-! ## Schemas without identifiers -/

namespace Schema

/-- A schema that has no identifier, nor has any schema below it. An extension link leads to a schema
below. -/
def Anonymous (s : Schema) : Prop := ∀ t, s.Contains t → t.ownRefId? = none

theorem Anonymous.of_children {s : Schema} (own : s.ownRefId? = none)
    (children : ∀ c ∈ s.children, c.Anonymous) : s.Anonymous := by
  intro t ht
  rcases contains_iff.mp ht with rfl | ⟨c, hc, hct⟩
  · exact own
  · exact children c hc t hct

theorem Anonymous.refId?_eq_none {s : Schema} (h : s.Anonymous) : s.refId? = none := by
  rw [refId?, identity?]
  cases hlabel : s.visibleLabel with
  | none => rfl
  | some label =>
    obtain ⟨t, ht, htlabel⟩ := exists_label hlabel
    have hown := h t ht
    rw [ownRefId?, htlabel] at hown
    exact hown

theorem Anonymous.site {s : Schema} (h : s.Anonymous) : s.site.Anonymous := by
  intro u hu
  obtain ⟨t, ht, rfl⟩ := settled_of_reaches hu
  have below : t.Anonymous := fun v hv => h v (ht.trans hv)
  exact below.refId?_eq_none

/-- A schema without identifiers comes to one end whatever was compiled before, and stores nothing,
whether its fragment is asked for or a reference. So a tuple of copies of it describes one item, and
says how many there are. -/
theorem compiles_without_history {s : Schema} (anonymous : s.Anonymous) (dialect : Dialect) :
    ∃ outcome : Except Problem Fragment,
      (∀ reply store, s.site.compile dialect reply store = outcome.map (·, store))
      ∧ (s.Keyed → ∀ n, 0 < n → ∀ reply store,
          (ofKind (.tuple (List.replicate n s))).site.compile dialect reply store
            = outcome.map fun fragment =>
              ([("type", .string "array"), ("items", .object fragment), ("minItems", .nat n),
                ("maxItems", .nat n)], store)) := by
  obtain ⟨outcome, houtcome⟩ : Compile.Constant (s.site.compile dialect .fragment) :=
    s.site.constant_compile anonymous.site .fragment
  -- Where nothing is stored, there is nothing to answer with but the fragment.
  have hsame (reply : Reply) (store : Store Fragment) :
      s.site.compile dialect reply store = outcome.map (·, store) := by
    have hnone : s.site.refId = none := anonymous.site _ (.refl _)
    rw [Site.compile_of_unnamed hnone, ← Site.compile_of_unnamed hnone .fragment]
    exact houtcome store
  refine ⟨outcome, hsame, fun keyed n hn reply store => ?_⟩
  obtain ⟨m, rfl⟩ := Nat.exists_eq_succ_of_ne_zero (Nat.pos_iff_ne_zero.mp hn)
  rw [compile_tuple, List.map_replicate, List.length_replicate]
  cases outcome with
  | error problem =>
    -- The first copy ends the tuple with the problem.
    rw [List.replicate_succ, Compile.bind_apply_error (Shape.compileAll_error (hsame _ store))]
    rfl
  | ok fragment =>
    have hdistinct : (Json.object fragment).same (.object fragment) = true :=
      Json.same_refl _ (keyed.site.distinct_compile (hsame .reference store))
    rw [Compile.bind_apply_ok (Shape.compileAll_replicate (hsame _ store) _), Shape.tupleItems,
      Json.distinct_replicate hdistinct]
    rfl

/-- Three points in a row, one of whose keys is read by a pipeline: the items are described once, and
what is stored already is neither consulted nor added to. -/
theorem tuple_of_points :
    let text := ofKind (.string [])
    let point := object [("x", (ofKind (.number [])).nullable), ("label", text.pipe (ofKind .boolean))]
    let described : Fragment := [("type", .string "object"),
      ("properties", .object [("x", .object [("type", .array [.string "number", .string "null"])]),
        ("label", .object [("type", .string "string")])]),
      ("required", .strings ["x", "label"])]
    let stored : Store Fragment := ⟨[("Point", described)]⟩
    (∀ reply store, point.site.compile .types reply store = .ok (described, store))
      ∧ (ofKind (.tuple (List.replicate 3 point))).site.compile .types .reference stored
        = .ok ([("type", .string "array"), ("items", .object described), ("minItems", .nat 3),
            ("maxItems", .nat 3)], stored) := by
  intro text point described stored
  have hanonymous : point.Anonymous := by
    have leaf {kind : Kind Schema} (h : (ofKind kind).children = []) : (ofKind kind).Anonymous :=
      .of_children rfl fun c hc => by cases h ▸ hc
    refine .of_children rfl (List.forall_mem_cons.mpr ⟨?_, List.forall_mem_singleton.mpr ?_⟩)
    · exact .of_children rfl (List.forall_mem_singleton.mpr (leaf rfl))
    · exact .of_children rfl
        (List.forall_mem_cons.mpr ⟨leaf rfl, List.forall_mem_singleton.mpr (leaf rfl)⟩)
  have hkeyed : point.Keyed := by
    have htext : text.Keyed := .of_valueless (List.forall_mem_nil _) nofun rfl
    refine .of_children (List.forall_mem_cons.mpr ⟨?_, List.forall_mem_singleton.mpr ?_⟩)
      (fun _ _ _ hkind => ?_) (List.forall_mem_nil _)
    · exact .of_valueless (List.forall_mem_singleton.mpr
        (.of_valueless (List.forall_mem_nil _) nofun rfl)) nofun rfl
    · exact .of_valueless (List.forall_mem_cons.mpr
        ⟨htext, List.forall_mem_singleton.mpr (.of_valueless (List.forall_mem_nil _) nofun rfl)⟩)
        nofun rfl
    · cases hkind
      decide
  obtain ⟨outcome, hsame, htuple⟩ := compiles_without_history hanonymous .types
  have hcompiled : point.site.compile .types .reference {} = .ok (described, {}) := rfl
  rw [hsame] at hcompiled
  cases outcome with
  | error problem => cases hcompiled
  | ok fragment =>
    cases hcompiled
    exact ⟨hsame, htuple hkeyed 3 (by decide) .reference stored⟩

end Schema

end OpenApi
