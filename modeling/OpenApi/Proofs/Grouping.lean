/-
# OpenApi.Proofs.Grouping -- how nested unions and intersections are grouped

A union that stands directly in a union is the same as its options in that place, and so is an
intersection in an intersection. `Connective.leaves` lists what is left when all such nodes are taken
apart, from left to right. A wrapper around a union is a leaf: there the nesting ends.

What is compiled lists the leaves (`Connective.shape_eq`), and whether a missing value or null is
accepted is a matter of the leaves (`Connective.combine_leaves`): any of them in a union, all of them
in an intersection. What the nodes in between are called and what is said about them counts for
nothing. So two groupings of the same leaves are compiled alike, in every state.
-/
import OpenApi.Proofs.Wrapping

namespace OpenApi.Schema

/-! ## Connectives and their leaves -/

/-- A kind that puts schemas together. -/
inductive Connective where
  | union
  | intersection
  deriving DecidableEq, Repr

namespace Connective

/-- The schemas that a node of the connective puts together. -/
def members? : Connective → Kind Schema → Option (List Schema)
  | union, .union options => some options
  | intersection, .intersection left right => some [left, right]
  | _, _ => none

mutual

/-- The schemas that a tree of nodes of the connective puts together, from left to right. -/
def leaves (c : Connective) : Schema → List Schema
  | node (.union options) description label =>
    match c with
    | union => leavesOfAll c options
    | intersection => [node (.union options) description label]
  | node (.intersection left right) description label =>
    match c with
    | union => [node (.intersection left right) description label]
    | intersection => leaves c left ++ leaves c right
  | s => [s]

/-- The same for several trees, one after another. -/
def leavesOfAll (c : Connective) : List Schema → List Schema
  | [] => []
  | s :: rest => leaves c s ++ leavesOfAll c rest

end

theorem leavesOfAll_eq (c : Connective) (schemas : List Schema) :
    c.leavesOfAll schemas = schemas.flatMap c.leaves := by
  induction schemas with
  | nil => rfl
  | cons s rest ih => rw [leavesOfAll, ih, List.flatMap_cons]

variable {c : Connective} {s : Schema}

theorem leaves_of_members {members : List Schema} (h : c.members? s.kind = some members) :
    c.leaves s = members.flatMap c.leaves := by
  obtain ⟨kind, description, label⟩ := s
  cases c with
  | union =>
    cases kind <;> cases h
    rw [leaves, leavesOfAll_eq]
  | intersection =>
    cases kind <;> cases h
    rw [leaves, List.flatMap_cons, List.flatMap_singleton]

theorem leaves_of_leaf (h : c.members? s.kind = none) : c.leaves s = [s] := by
  obtain ⟨kind, description, label⟩ := s
  cases c <;> cases kind <;> first | rfl | cases h

theorem mem_schemas_of_members {members : List Schema} (h : c.members? s.kind = some members) :
    s.kind.schemas = members := by
  obtain ⟨kind, description, label⟩ := s
  cases c <;> cases kind <;> cases h <;> rfl

/-- What passes from the members of a node of the connective to the node holds of every schema, if it
holds of the leaves. -/
theorem induction {P : Schema → Prop} (leaf : ∀ s, c.members? s.kind = none → P s)
    (node : ∀ s members, c.members? s.kind = some members → (∀ m ∈ members, P m) → P s)
    (s : Schema) : P s := by
  induction s using Schema.induction with
  | step s ih =>
    cases h : c.members? s.kind with
    | none => exact leaf s h
    | some members =>
      refine node s members h fun m hm => ih m (List.mem_append_left _ ?_)
      rw [mem_schemas_of_members h]
      exact hm

/-! ## What is accepted -/

/-- What a test of schemas comes to for schemas that are put together: any of them, or all. -/
def combine (c : Connective) (test : Schema → Bool) (schemas : List Schema) : Bool :=
  match c with
  | union => schemas.any test
  | intersection => schemas.all test

theorem combine_congr {test test' : Schema → Bool} {schemas : List Schema}
    (h : ∀ s ∈ schemas, test s = test' s) : c.combine test schemas = c.combine test' schemas := by
  have hmap : schemas.map test = schemas.map test' := List.map_congr_left h
  cases c with
  | union =>
    have hany := congrArg (List.any · id) hmap
    simpa only [combine, List.any_map, Function.id_comp] using hany
  | intersection =>
    have hall := congrArg (List.all · id) hmap
    simpa only [combine, List.all_map, Function.id_comp] using hall

/-- A test that a node of the connective passes on to its members is a matter of the leaves. -/
theorem combine_leaves {test : Schema → Bool}
    (passed : ∀ s members, c.members? s.kind = some members → test s = c.combine test members)
    (s : Schema) : test s = c.combine test (c.leaves s) := by
  induction s using Connective.induction (c := c) with
  | leaf s h =>
    rw [leaves_of_leaf h]
    cases c <;> simp [combine]
  | node s members h ih =>
    rw [leaves_of_members h, passed s members h, combine_congr ih]
    cases c <;> simp [combine, List.any_flatMap, List.all_flatMap]

theorem isOptional_eq (c : Connective) (s : Schema) :
    s.isOptional = c.combine isOptional (c.leaves s) := by
  refine combine_leaves (fun s members h => ?_) s
  obtain ⟨kind, description, label⟩ := s
  cases c <;> cases kind <;> cases h
  · rw [isOptional, anyOptional_eq]
    rfl
  · rw [isOptional, combine, List.all_cons, List.all_cons, List.all_nil, Bool.and_true]

theorem isNullable_eq (c : Connective) (s : Schema) :
    s.isNullable = c.combine isNullable (c.leaves s) := by
  refine combine_leaves (fun s members h => ?_) s
  obtain ⟨kind, description, label⟩ := s
  cases c <;> cases kind <;> cases h
  · rw [isNullable, anyNullable_eq]
    rfl
  · rw [isNullable, combine, List.all_cons, List.all_cons, List.all_nil, Bool.and_true]

/-! ## What is compiled -/

/-- The site of a leaf. In a union, a nullable wrapper at the top of it is taken off. -/
def leafSite : Connective → Schema → Site
  | union, s => s.nonNullable.site
  | intersection, s => s.site

/-- The shape that lists the given sites. -/
def listed : Connective → List Site → Shape
  | union, sites => .anyOf sites
  | intersection, sites => .allOf sites

/-- The sites that a schema stands for where it is put together with others. -/
def sitesOf : Connective → Schema → List Site
  | union, s => s.alternatives (s.shape false)
  | intersection, s => s.conjuncts (s.shape false)

theorem sitesOf_of_leaf (h : c.members? s.kind = none) : c.sitesOf s = [c.leafSite s] := by
  cases c with
  | union =>
    have hsite : s.nonNullable.siteOf (s.shape false) = s.nonNullable.site := by
      rw [site, shape_nonNullable]
    rw [sitesOf, leafSite, ← hsite, alternatives]
    intro options _ hkind _
    rw [hkind] at h
    cases h
  | intersection =>
    rw [sitesOf, leafSite, site, conjuncts]
    intro left right _ hkind _
    rw [hkind] at h
    cases h

theorem shape_of_members {members : List Schema} (h : c.members? s.kind = some members)
    (piped : Bool) : s.shape piped = c.listed (members.flatMap c.sitesOf) := by
  obtain ⟨kind, description, label⟩ := s
  cases c <;> cases kind <;> cases h
  · rw [shape, optionSites_eq]
    rfl
  · rw [shape, List.flatMap_cons, List.flatMap_singleton]
    rfl

theorem sitesOf_of_members {members : List Schema} (h : c.members? s.kind = some members) :
    c.sitesOf s = members.flatMap c.sitesOf := by
  have hshape := shape_of_members h false
  obtain ⟨kind, description, label⟩ := s
  cases c <;> cases kind <;> cases h
  · rw [sitesOf, hshape]
    rfl
  · rw [sitesOf, hshape]
    rfl

theorem sitesOf_eq (c : Connective) (s : Schema) : c.sitesOf s = (c.leaves s).map c.leafSite := by
  induction s using Connective.induction (c := c) with
  | leaf s h => rw [sitesOf_of_leaf h, leaves_of_leaf h, List.map_singleton]
  | node s members h ih =>
    rw [sitesOf_of_members h, leaves_of_members h, List.map_flatMap]
    exact List.flatMap_congr ih

/-- A node of the connective is settled to the list of its leaves. -/
theorem shape_eq (h : (c.members? s.kind).isSome = true) (piped : Bool) :
    s.shape piped = c.listed ((c.leaves s).map c.leafSite) := by
  obtain ⟨members, hmembers⟩ := Option.isSome_iff_exists.mp h
  rw [shape_of_members hmembers, ← sitesOf_of_members hmembers, sitesOf_eq]

/-- A node of a connective is no wrapper, and no default is looked up under it. -/
theorem core_of_members (h : (c.members? s.kind).isSome = true) : s.core = s := by
  obtain ⟨kind, description, label⟩ := s
  cases c <;> cases kind <;> first | rfl | cases h

theorem default_of_members (h : (c.members? s.kind).isSome = true) :
    s.default?.or s.inputDefault? = none := by
  obtain ⟨kind, description, label⟩ := s
  cases c <;> cases kind <;> first | rfl | cases h

end Connective

/-! ## Regrouping -/

/-- Two nodes of a connective that carry the same and put the same leaves together in the same
order. -/
structure Regrouped (c : Connective) (s t : Schema) : Prop where
  left : (c.members? s.kind).isSome = true
  right : (c.members? t.kind).isSome = true
  description : s.description = t.description
  label : s.label = t.label
  leaves : c.leaves s = c.leaves t

namespace Regrouped

variable {c : Connective} {s t : Schema}

theorem isOptional_eq (h : Regrouped c s t) : s.isOptional = t.isOptional := by
  rw [c.isOptional_eq s, c.isOptional_eq t, h.leaves]

theorem isNullable_eq (h : Regrouped c s t) : s.isNullable = t.isNullable := by
  rw [c.isNullable_eq s, c.isNullable_eq t, h.leaves]

theorem alike (h : Regrouped c s t) : LookedUpAlike s t := by
  have hs := Connective.core_of_members h.left
  have ht := Connective.core_of_members h.right
  apply LookedUpAlike.of_visible
  · rw [visibleLabel, visibleLabel, hs, ht, h.label]
  · rw [visibleDescription, visibleDescription, hs, ht, h.description]

theorem site_eq (h : Regrouped c s t) : s.site = t.site := by
  have hshape : s.shape false = t.shape false := by
    rw [Connective.shape_eq h.left, Connective.shape_eq h.right, h.leaves]
  have hkeys : s.documentKeys = t.documentKeys := by
    rw [documentKeys, documentKeys, h.alike.metadata]
  rw [site, site, siteOf, siteOf, h.alike.refId, hkeys, h.isNullable_eq,
    Connective.default_of_members h.left, Connective.default_of_members h.right, hshape]

end Regrouped

/-- How unions are grouped in unions, and intersections in intersections, makes no difference. Two
groupings of the same leaves are settled alike, so that from every store they are answered with the
same fragment or the same problem and leave the same store, and they accept a missing value and null
alike. They list their leaves, and accept what any of these does in a union, and what all of them do in
an intersection. -/
theorem compile_regrouped {c : Connective} {s t : Schema} (h : Regrouped c s t) :
    s.site = t.site
      ∧ (∀ dialect reply store,
        s.site.compile dialect reply store = t.site.compile dialect reply store)
      ∧ s.isOptional = t.isOptional ∧ s.isNullable = t.isNullable
      ∧ (∀ piped, s.shape piped = c.listed ((c.leaves s).map c.leafSite))
      ∧ s.isOptional = c.combine isOptional (c.leaves s)
      ∧ s.isNullable = c.combine isNullable (c.leaves s) :=
  ⟨h.site_eq, fun _ _ _ => by rw [h.site_eq], h.isOptional_eq, h.isNullable_eq,
    Connective.shape_eq h.left, c.isOptional_eq s, c.isNullable_eq s⟩

/-- Three options in two groupings: the nullable wrapper of the first is taken off, null is listed once,
as the last option, and the identifier of the union in between is not heard of. -/
theorem null_listed_in_both_groupings :
    let text := (ofKind (.string [])).nullable
    let flag := ofKind .boolean
    let nothing := ofKind .null
    let s := (ofKind (.union [ofKind (.union [text, flag]), nothing])).named "U"
    let t := (ofKind (.union [text, (ofKind (.union [flag, nothing])).named "V"])).named "U"
    let options : List Json := [.object [("type", .string "string")],
      .object [("type", .string "boolean")], .object [("type", .string "null")]]
    Regrouped .union s t
      ∧ s.site.compile .types .fragment {} = t.site.compile .types .fragment {}
      ∧ t.site.compile .types .fragment {}
        = .ok ([("anyOf", .array options)], ⟨[("U", [("anyOf", .array options)])]⟩)
      ∧ s.isNullable = true := by
  intro text flag nothing s t options
  have h : Regrouped .union s t := ⟨rfl, rfl, rfl, rfl, rfl⟩
  refine ⟨h, (compile_regrouped h).2.1 _ _ _, rfl, ?_⟩
  rw [(compile_regrouped h).2.2.2.1]
  rfl

end OpenApi.Schema
