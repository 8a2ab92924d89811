/-
# OpenApi.Proofs.Recompilation -- what a schema is answered once it is stored

A schema that is stored under its identifier is answered with a reference, and with a delta if
recompiling its shape says something that the stored fragment does not. Here is when that happens
to the very schema that was stored.

Two things are shown by following the sequence of compilations. Once a computation has come to an
end, everything it visits is stored, so from then on it comes to one and the same end and stores
nothing (`Compile.Settles`). And if no site below changes its answer once it is stored, that end
is the first one (`Compile.Repeats`). Then the answer is the bare reference exactly if the
document keys contradict nothing that the shape says (`Site.Consistent`).
-/
import OpenApi.Proofs.LawfulOperations
import OpenApi.Proofs.OperationTree

namespace OpenApi

/-! ## What one fragment says of another -/

namespace Fragment

/-- Every key of a fragment that is not null is found in another with the same value. -/
def Says (own body : Fragment) : Prop :=
  ∀ e ∈ body, e.2.isNull = false →
    ∃ value, Entries.get? own e.1 = some value ∧ value.same e.2 = true

theorem says_nil (own : Fragment) : Says own [] := fun _ he => absurd he List.not_mem_nil

theorem says_cons_iff {own rest : Fragment} {e : String × Json} :
    Says own (e :: rest)
      ↔ (e.2.isNull = false → ∃ value, Entries.get? own e.1 = some value ∧ value.same e.2 = true)
        ∧ Says own rest := List.forall_mem_cons

/-- Where keys and a fragment have a key in common, they give it the same value. -/
def Agrees (keys body : Fragment) : Prop :=
  ∀ e ∈ body, e.2.isNull = false →
    ∀ value, Entries.get? keys e.1 = some value → value.same e.2 = true

theorem isNull_of_same {value other : Json} (h : value.same other = true)
    (ho : other.isNull = false) : value.isNull = false := by
  cases value with
  | null =>
    cases other with
    | null => exact ho
    | _ => simp [Json.same] at h
  | _ => rfl

theorem nonNull_without_eq_nil_iff {body own : Fragment} :
    nonNull (without body own) = [] ↔ Says own body := by
  unfold nonNull without Says
  rw [List.filter_filter, List.filter_eq_nil_iff]
  refine forall_congr' fun e => imp_congr_right fun _ => ?_
  cases hnull : e.2.isNull with
  | true => simp
  | false =>
    cases hget : Entries.get? own e.1 with
    | none => simp
    | some value => simp

theorem get?_overlay {body keys : Fragment} (hbody : (Entries.keys body).Nodup)
    (hkeys : (Entries.keys keys).Nodup) {key : String} {value : Json} :
    Entries.get? (overlay body keys) key = some value
      ↔ value.isNull = false ∧ (Entries.get? keys key).or (Entries.get? body key) = some value := by
  rw [← Entries.get?_extend body hkeys]
  have hnodup := Entries.nodup_keys_extend hbody keys
  constructor
  · intro h
    obtain ⟨hmem, hnull⟩ := List.mem_filter.mp (Entries.mem_of_get? h)
    exact ⟨by simpa using hnull, Entries.get?_of_mem hnodup hmem⟩
  · rintro ⟨hnull, h⟩
    exact Entries.get?_filter h (by simpa using hnull)

/-- A fragment under keys says what the fragment says exactly if the keys agree with it. -/
theorem says_overlay_iff {body keys : Fragment} (hbody : (Entries.keys body).Nodup)
    (hkeys : (Entries.keys keys).Nodup) (hsame : ∀ e ∈ body, e.2.same e.2 = true) :
    Says (overlay body keys) body ↔ Agrees keys body := by
  constructor
  · intro h e he hnull value hvalue
    obtain ⟨found, hfound, hfoundSame⟩ := h e he hnull
    have hor := ((get?_overlay hbody hkeys).mp hfound).2
    rw [hvalue] at hor
    cases hor
    exact hfoundSame
  · intro h e he hnull
    cases hget : Entries.get? keys e.1 with
    | some value =>
      have hvalue := h e he hnull value hget
      refine ⟨value, (get?_overlay hbody hkeys).mpr ⟨isNull_of_same hvalue hnull, ?_⟩, hvalue⟩
      rw [hget]
      rfl
    | none =>
      refine ⟨e.2, (get?_overlay hbody hkeys).mpr ⟨hnull, ?_⟩, hsame e he⟩
      rw [hget]
      exact Entries.get?_of_mem hbody he

/-- What keys write into a fragment is found there. -/
theorem without_keys_overlay (body : Fragment) {keys : Fragment}
    (hkeys : (Entries.keys keys).Nodup) (hsame : ∀ e ∈ keys, e.2.same e.2 = true) :
    without keys (overlay body keys) = [] := by
  unfold without
  rw [List.filter_eq_nil_iff]
  intro e he
  cases hnull : e.2.isNull with
  | true => simp
  | false =>
    have hextend : Entries.get? (Entries.extend body keys) e.1 = some e.2 := by
      rw [Entries.get?_extend body hkeys, Entries.get?_of_mem hkeys he]
      rfl
    have hget : Entries.get? (overlay body keys) e.1 = some e.2 :=
      Entries.get?_filter hextend (by simp [hnull])
    simp [hget, hsame e he]

theorem referenceWith_eq_toSchema_iff {refId : String} {delta : Fragment} :
    referenceWith refId delta = Reference.toSchema refId ↔ delta = [] := by
  have hkey : "allOf" ≠ "$ref" := by decide
  unfold referenceWith
  cases delta with
  | nil => simp
  | cons first rest => simp [referenceAnd, Reference.toSchema, Reference.toPath, hkey]

/-! ## Types and null -/

theorem same_append_null (type : Json) :
    type.same (.array ((match type with
      | .array several => several
      | single => [single]) ++ [.string "null"])) = false := by
  have hlonger : ∀ items : List Json, Json.sameItems items (items ++ [.string "null"]) = false := by
    intro items
    induction items with
    | nil => simp [Json.sameItems]
    | cons first rest ih => rw [List.cons_append, Json.sameItems, ih, Bool.and_false]
  cases type with
  | array items => simpa [Json.same] using hlonger items
  | _ => simp [Json.same]

/-- A type that was written as it stands says what the type says beside a stored fragment, unless
null is accepted there: then it has to be marked by a flag that was written as well. -/
theorem says_typeKeys_iff {keys : Fragment} (hkeys : (Entries.keys keys).Nodup) {type : Json}
    (htype : Entries.get? keys "type" = some type) (hsame : type.same type = true)
    (dialect : Dialect) (nullable : Bool) :
    Says (overlay [("type", type)] keys) (dialect.typeKeys (some type) nullable)
      ↔ (nullable = true → dialect = .flags
          ∧ ∃ value, Entries.get? keys "nullable" = some value ∧ value.same (.bool true) = true) := by
  have hbody : (Entries.keys [("type", type)]).Nodup := List.nodup_singleton _
  have hfound (hnull : type.isNull = false) : ∃ value,
      Entries.get? (overlay [("type", type)] keys) "type" = some value
        ∧ value.same type = true := by
    refine ⟨type, (get?_overlay hbody hkeys).mpr ⟨hnull, ?_⟩, hsame⟩
    rw [htype]
    rfl
  have hne : "type" ≠ "nullable" := by decide
  cases nullable with
  | false =>
    have hplain : dialect.typeKeys (some type) false = [("type", type)] := by
      cases dialect <;> rfl
    rw [hplain, says_cons_iff]
    exact ⟨fun _ hnullable => absurd hnullable (by decide), fun _ => ⟨hfound, says_nil _⟩⟩
  | true =>
    cases dialect with
    | types =>
      -- The list of types ends with null, so it is longer than any list in the keys.
      constructor
      · intro h
        obtain ⟨value, hvalue, hvalueSame⟩ := h _ List.mem_cons_self rfl
        have hor := ((get?_overlay hbody hkeys).mp hvalue).2
        rw [htype] at hor
        cases hor
        cases hvalueSame.symm.trans (same_append_null type)
      · intro h
        cases (h rfl).1
    | flags =>
      have hmarked : Dialect.flags.typeKeys (some type) true
          = [("type", type), ("nullable", .bool true)] := rfl
      rw [hmarked, says_cons_iff, says_cons_iff]
      constructor
      · rintro ⟨_, hflag, _⟩ _
        obtain ⟨value, hvalue, hvalueSame⟩ := hflag rfl
        have hor := ((get?_overlay hbody hkeys).mp hvalue).2
        exact ⟨rfl, value, by simpa [Entries.get?, hne] using hor, hvalueSame⟩
      · intro h
        obtain ⟨_, value, hvalue, hvalueSame⟩ := h rfl
        refine ⟨hfound, fun _ => ⟨value, ?_, hvalueSame⟩, says_nil _⟩
        refine (get?_overlay hbody hkeys).mpr ⟨isNull_of_same hvalueSame rfl, ?_⟩
        rw [hvalue]
        rfl

end Fragment

/-! ## Computations that settle -/

namespace Compile

variable {α : Type}

/-- Once the first computation has come to an end, the second comes to one end whatever else is
stored, and stores nothing. -/
def Settles {α : Type} (c c' : Compile α) : Prop :=
  Grows c ∧ ∀ store a after, c store = .ok (a, after) →
    ∃ a', ∀ later, after ≤ later → c' later = .ok (a', later)

theorem parallel_settles : Parallel @Settles where
  pure a a' := by
    refine ⟨grows_sequential.pure a, fun store b after h => ⟨a', fun later _ => rfl⟩⟩
  fail problem := by
    refine ⟨grows_sequential.fail problem, fun store a after h => ?_⟩
    cases h
  bind := by
    intro α β c c' k k' hc hk
    refine ⟨grows_sequential.bind hc.1 fun a => (hk a a).1, fun store b after h => ?_⟩
    obtain ⟨a, mid, ha, hb⟩ := of_bind_ok h
    obtain ⟨a', ha'⟩ := hc.2 store a mid ha
    obtain ⟨b', hb'⟩ := (hk a a').2 mid b after hb
    -- Both parts have settled by `after`, so neither stores anything in a later state.
    have hmid : mid ≤ after := (hk a a').1 mid b after hb
    refine ⟨b', fun later hlater => ?_⟩
    rw [bind_apply_ok (ha' later (le_trans hmid hlater))]
    exact hb' later hlater
  mapProblem := by
    intro α f c c' hc
    refine ⟨grows_sequential.mapProblem f hc.1, fun store a after h => ?_⟩
    obtain ⟨a', ha'⟩ := hc.2 store a after (mapProblem_apply_ok.mp h)
    exact ⟨a', fun later hlater => mapProblem_apply_ok.mpr (ha' later hlater)⟩

/-- Once a computation has come to an end, it comes to the same end whatever else is stored, and
stores nothing. -/
def Repeats {α : Type} (c : Compile α) : Prop :=
  Grows c ∧ ∀ store a after, c store = .ok (a, after) →
    ∀ later, after ≤ later → c later = .ok (a, later)

theorem sequential_repeats : Sequential @Repeats where
  pure a := by
    refine ⟨grows_sequential.pure a, fun store b after h later _ => ?_⟩
    rw [(of_pure_ok h).1]
    rfl
  fail problem := by
    refine ⟨grows_sequential.fail problem, fun store a after h => ?_⟩
    cases h
  bind := by
    intro α β c k hc hk
    refine ⟨grows_sequential.bind hc.1 fun a => (hk a).1, fun store b after h later hlater => ?_⟩
    obtain ⟨a, mid, ha, hb⟩ := of_bind_ok h
    have hmid : mid ≤ after := (hk a).1 mid b after hb
    rw [bind_apply_ok (hc.2 store a mid ha later (le_trans hmid hlater))]
    exact (hk a).2 mid b after hb later hlater
  mapProblem := by
    intro α f c hc
    refine ⟨grows_sequential.mapProblem f hc.1, fun store a after h later hlater => ?_⟩
    exact mapProblem_apply_ok.mpr (hc.2 store a after (mapProblem_apply_ok.mp h) later hlater)

end Compile

/-! ## Sites beside their own fragments -/

namespace Site

variable {dialect : Dialect} {t : Site} {reply : Reply} {before after store : Store Fragment}

/-- Compiling a site again, whatever it was answered at first, comes to one end. -/
theorem settles (t : Site) (reply reply' : Reply) :
    Compile.Settles (t.compile dialect reply) (t.compile dialect reply') := by
  induction t using Site.induction generalizing reply reply' with
  | step t ih =>
    have hbody (beside beside' : Bool) :
        Compile.Settles (t.body dialect beside) (t.body dialect beside') :=
      body_parallel Compile.parallel_settles beside beside'
        (fun c hc => ih c hc .reference .reference) fun c hc _ => ih c hc .fragment .fragment
    refine ⟨t.grows_compile reply, fun store answer after h => ?_⟩
    -- From here on the identifier, if there is one, stands for what it stands for now.
    have hstored {mid : Store Fragment} {name : String} {stored body : Fragment} (beside : Bool)
        (hmid : t.body dialect beside store = .ok (body, mid)) (hle : mid ≤ after)
        (hname : t.refId = some name) (hget : after.get? name = some stored) :
        ∃ again, ∀ later, after ≤ later →
          t.compile dialect reply' later = .ok (again, later) := by
      obtain ⟨body', hbody'⟩ := (hbody beside true).2 store body mid hmid
      by_cases hsaid : Entries.contains (t.said stored) "type" = true
      · refine ⟨Fragment.referenceAnd name (t.said stored), fun later hlater =>
          compile_eq_ok_iff.mpr ?_⟩
        exact .retyped hname (Store.get?_of_le hlater hget) hsaid
      · refine ⟨t.beside name stored body', fun later hlater => compile_eq_ok_iff.mpr ?_⟩
        exact .reused hname (Store.get?_of_le hlater hget) hsaid (hbody' later (le_trans hle hlater))
    cases compile_eq_ok_iff.mp h with
    | @retyped name stored hname hget hsaid =>
      refine ⟨Fragment.referenceAnd name (t.said stored), fun later hlater =>
        compile_eq_ok_iff.mpr ?_⟩
      exact .retyped hname (Store.get?_of_le hlater hget) hsaid
    | reused hname hget _ hend =>
      have hle : store ≤ after := t.grows_body true store _ after hend
      exact hstored true hend (le_refl _) hname (Store.get?_of_le hle hget)
    | unnamed hname hend =>
      obtain ⟨body', hbody'⟩ := (hbody false false).2 store _ after hend
      exact ⟨_, fun later hlater => compile_eq_ok_iff.mpr (.unnamed hname (hbody' later hlater))⟩
    | taken hname _ hend hget => exact hstored false hend (le_refl _) hname hget
    | stored hname _ hmid _ =>
      obtain ⟨_, hget⟩ := Store.exists_get?_of_contains (Store.contains_define _ _ _)
      exact hstored false hmid (Store.le_define _ _ _) hname hget

theorem settles_body (t : Site) (beside beside' : Bool) :
    Compile.Settles (t.body dialect beside) (t.body dialect beside') :=
  body_parallel Compile.parallel_settles beside beside'
    (fun c _ => c.settles .reference .reference) fun c _ _ => c.settles .fragment .fragment

end Site

/-! ## No object repeats a key -/

/-- No object repeats a key, wherever references lead. -/
def distinctLaw : Law where
  Binds := False
  Keys := List.Nodup
  Allows _ _ := True
  Seals _ _ := True
  Grants _ := True

theorem distinctLaw_lawful (dialect : Dialect) : distinctLaw.Lawful dialect where
  keys_nil := List.nodup_nil
  keys_snoc h hkey := by
    refine List.nodup_append.mpr ⟨h, List.nodup_singleton _, fun a ha b hb hab => ?_⟩
    rw [List.mem_singleton] at hb
    exact hkey (hb ▸ hab ▸ ha)
  keys_sublist h h' := h'.sublist h
  allows_mono _ _ := trivial
  seals_mono _ _ := trivial
  allows _ := trivial
  placed _ _ := trivial
  granted _ _ := trivial
  written _ _ := trivial
  reference _ := trivial
  mapping _ := ⟨trivial, fun _ _ => trivial⟩
  discriminator _ := trivial

/-- Nothing that belongs to a schema repeats a key: neither the fields of an object, nor an
object in a value that is given with the schema. -/
structure Schema.Keyed (s : Schema) : Prop where
  fields : s.Lists List.Nodup
  given : ∀ value, s.Gives value → value.Distinct

/-- A schema repeats no key if its own node does not, nor the schemas below it. -/
theorem Schema.Keyed.of_children {s : Schema} (children : ∀ c ∈ s.children, c.Keyed)
    (fields : ∀ fields treatment catchall, s.kind = .object fields treatment catchall →
      (Entries.keys fields).Nodup) (given : ∀ value ∈ s.given, value.Distinct) : s.Keyed where
  fields := by
    intro t ht
    rcases Schema.contains_iff.mp ht with rfl | ⟨c, hc, hct⟩
    · exact fields
    · exact (children c hc).fields t hct
  given := by
    rintro value ⟨t, ht, hvalue⟩
    rcases Schema.contains_iff.mp ht with rfl | ⟨c, hc, hct⟩
    · exact given value hvalue
    · exact (children c hc).given value ⟨t, hct, hvalue⟩

/-- A schema that is no object and comes with no value repeats no key if the schemas below it do not. -/
theorem Schema.Keyed.of_valueless {s : Schema} (children : ∀ c ∈ s.children, c.Keyed)
    (hkind : ∀ fields treatment catchall, s.kind ≠ .object fields treatment catchall)
    (hgiven : s.given = []) : s.Keyed := by
  refine .of_children children (fun _ _ _ hobject => absurd hobject (hkind _ _ _)) ?_
  rw [hgiven]
  exact List.forall_mem_nil _

/-- A site and the sites that it visits repeat no key. -/
def Site.Keyed (t : Site) : Prop :=
  ∀ u, t.Reaches u → u.Wired distinctLaw.Binds distinctLaw.Keys distinctLaw.Clean

theorem Schema.Keyed.site {s : Schema} (h : s.Keyed) : s.site.Keyed := by
  intro u hu
  refine Schema.wired_of_reaches List.nodup_nil (fun hb => hb.elim) h.fields
    (fun value hvalue => ?_) hu
  exact (h.given value hvalue).mono fun members hmembers => ⟨hmembers, fun _ _ => trivial⟩

namespace Site

variable {dialect : Dialect} {t : Site} {store after : Store Fragment} {beside : Bool}

theorem Keyed.child (h : t.Keyed) {c : Site} (hc : c ∈ t.children) : c.Keyed :=
  fun u hu => h u (.step hc hu)

theorem Keyed.nodup_keys (h : t.Keyed) : (Entries.keys t.keys).Nodup := (h t (.refl t)).distinct

theorem Keyed.same_keys (h : t.Keyed) : ∀ e ∈ t.keys, e.2.same e.2 = true := by
  intro e he
  have here := h t (.refl t)
  have hsealed := Law.sealed_keys (distinctLaw_lawful .types) here.distinct here.keys ⟨{}, {}⟩
  exact Json.same_refl e.2 (Json.Everywhere.mono (fun _ h => h.1) (hsealed.closed e he))

/-- What stands for the shape repeats no key. -/
theorem Keyed.distinct_body (h : t.Keyed) {body : Fragment}
    (hbody : t.body dialect beside store = .ok (body, after)) : (Json.object body).Distinct := by
  have lawful := distinctLaw_lawful dialect
  have hkeeps : (distinctLaw).Keeps {} store (distinctLaw).Sealed (t.body dialect beside) :=
    Law.keeps_body lawful (h t (.refl t)) (fun _ _ => trivial)
      (fun c hc => Law.compiles lawful c (h.child hc) fun _ _ _ _ => trivial) beside store
  obtain ⟨_, _, hsealed⟩ := hkeeps store body after (le_refl store) hbody
  exact Json.Everywhere.mono (fun _ h => h.1) (hsealed.object lawful)

/-! ## When a site adds nothing to its own fragment -/

/-- The keys of a site contradict nothing that was compiled for it. A type that stands in for the
shape says nothing about null, so null may be accepted there only where the keys say so. -/
def Consistent (dialect : Dialect) (t : Site) (body : Fragment) : Prop :=
  match t.override? with
  | some _ => t.nullable = true → dialect = .flags
      ∧ ∃ value, Entries.get? t.keys "nullable" = some value ∧ value.same (.bool true) = true
  | none => Fragment.Agrees t.keys body

/-- What stands for the shape of a site beside the fragment that was stored for it, if no site
below changes its answer. -/
def bodyAgain (dialect : Dialect) (t : Site) (body : Fragment) : Fragment :=
  match t.override? with
  | some type => dialect.typeKeys (some type) t.nullable
  | none => body

theorem says_bodyAgain_iff (keyed : t.Keyed) {body : Fragment}
    (hbody : t.body dialect false store = .ok (body, after)) :
    Fragment.Says (Fragment.overlay body t.keys) (t.bodyAgain dialect body)
      ↔ t.Consistent dialect body := by
  unfold bodyAgain Consistent
  cases hover : t.override? with
  | some type =>
    rw [body_of_override false hover] at hbody
    rw [(Compile.of_pure_ok hbody).1]
    exact Fragment.says_typeKeys_iff keyed.nodup_keys hover
      (keyed.same_keys _ (Entries.mem_of_get? hover)) dialect t.nullable
  | none =>
    obtain ⟨hnodup, hvalues⟩ := Json.everywhere_object.mp (keyed.distinct_body hbody)
    exact Fragment.says_overlay_iff hnodup keyed.nodup_keys fun e he =>
      Json.same_refl e.2 (hvalues e he)

theorem said_own (keyed : t.Keyed) (body : Fragment) :
    t.said (Fragment.overlay body t.keys) = [] :=
  Fragment.without_keys_overlay body keyed.nodup_keys keyed.same_keys

/-- Beside its own fragment, a site has nothing to say in its keys. -/
theorem compile_of_own (keyed : t.Keyed) {name : String} {body again : Fragment}
    (hname : t.refId = some name) (hstored : store.get? name = some (Fragment.overlay body t.keys))
    (hagain : t.body dialect true store = .ok (again, after)) (reply : Reply) :
    t.compile dialect reply store
      = .ok (t.beside name (Fragment.overlay body t.keys) again, after) := by
  rw [compile_of_stored hname hstored, said_own keyed, if_neg (by decide),
    Compile.bind_apply_ok hagain]
  rfl

theorem beside_own_eq_toSchema_iff (keyed : t.Keyed) {name : String} {body again : Fragment} :
    t.beside name (Fragment.overlay body t.keys) again = Reference.toSchema name
      ↔ Fragment.Says (Fragment.overlay body t.keys) again := by
  unfold Site.beside
  rw [said_own keyed, Fragment.referenceWith_eq_toSchema_iff]
  exact Fragment.nonNull_without_eq_nil_iff

/-! ## Steady sites -/

/-- A site that does not change its answer once it is stored, if the sites below do not: its keys
contradict nothing that is compiled for it, no site below takes its identifier first, and no
named site is compiled in place. -/
structure Firm (dialect : Dialect) (t : Site) : Prop where
  consistent : t.refId ≠ none → ∀ store body after,
    t.body dialect false store = .ok (body, after) → t.Consistent dialect body
  apart : ∀ name, t.refId = some name → ∀ c ∈ t.children, ¬ c.Names name
  inlined : ∀ c ∈ t.children, t.shape = .inline c → c.refId = none

/-- A site that is firm, with all sites that it visits. -/
def Steady (dialect : Dialect) (t : Site) : Prop := ∀ u, t.Reaches u → u.Firm dialect

/-- All sites below a site are steady, and none of them is named and compiled in place. -/
def SteadyBelow (dialect : Dialect) (t : Site) : Prop :=
  ∀ c ∈ t.children, c.Steady dialect ∧ (t.shape = .inline c → c.refId = none)

theorem Steady.below (h : t.Steady dialect) : t.SteadyBelow dialect := fun c hc =>
  ⟨fun u hu => h u (.step hc hu), (h t (.refl t)).inlined c hc⟩

/-- Beside a stored fragment an overriding type is spelled out; a shape is compiled as ever. -/
theorem body_beside {body : Fragment} (hbody : t.body dialect false store = .ok (body, after)) :
    t.body dialect true store = .ok (t.bodyAgain dialect body, after) := by
  unfold bodyAgain
  cases hover : t.override? with
  | some type =>
    rw [body_of_override false hover] at hbody
    rw [body_of_override true hover, (Compile.of_pure_ok hbody).2]
    rfl
  | none =>
    rw [body_of_shape false hover] at hbody
    rw [body_of_shape true hover]
    exact hbody

theorem body_again (hrepeats : Compile.Repeats (t.body dialect false)) {body : Fragment}
    (hbody : t.body dialect false store = .ok (body, after)) {later : Store Fragment}
    (hlater : after ≤ later) :
    t.body dialect true later = .ok (t.bodyAgain dialect body, later) :=
  body_beside (hrepeats.2 store body after hbody later hlater)

/-- Children that repeat their answers make up a body that repeats. -/
theorem repeats_body_of_children (children : ∀ c ∈ t.children, ∀ reply,
      (c.refId ≠ none → reply = .reference) → Compile.Repeats (c.compile dialect reply))
    (inlined : ∀ c ∈ t.children, t.shape = .inline c → c.refId = none) (beside : Bool) :
    Compile.Repeats (t.body dialect beside) := by
  refine body_of_children Compile.sequential_repeats beside (fun c hc => ?_) fun c hc hin => ?_
  · exact children c hc .reference fun _ => rfl
  · exact children c hc .fragment fun hname => absurd (inlined c hc hin) hname

/-- A steady site is answered alike at all times, by a reference if it is named. -/
theorem repeats (t : Site) (keyed : t.Keyed) (steady : t.Steady dialect) (reply : Reply)
    (hreply : t.refId ≠ none → reply = .reference) :
    Compile.Repeats (t.compile dialect reply) := by
  induction t using Site.induction generalizing reply with
  | step t ih =>
    have hfirm := steady t (.refl t)
    have hbody (beside : Bool) : Compile.Repeats (t.body dialect beside) :=
      repeats_body_of_children
        (fun c hc => ih c hc (keyed.child hc) (steady.below c hc).1) hfirm.inlined beside
    refine ⟨t.grows_compile reply, fun store answer after h later hlater => ?_⟩
    cases compile_eq_ok_iff.mp h with
    | retyped hname hget hsaid =>
      exact compile_eq_ok_iff.mpr (.retyped hname (Store.get?_of_le hlater hget) hsaid)
    | reused hname hget hsaid hend =>
      have hle : store ≤ later := le_trans (t.grows_body true store _ after hend) hlater
      have hagain := (hbody true).2 store _ after hend later hlater
      exact compile_eq_ok_iff.mpr (.reused hname (Store.get?_of_le hle hget) hsaid hagain)
    | unnamed hname hend =>
      have hagain := (hbody false).2 store _ after hend later hlater
      exact compile_eq_ok_iff.mpr (.unnamed hname hagain)
    | taken hname hfree hend hget =>
      -- Nothing below is stored under the identifier.
      rw [get?_body hend (hfirm.apart _ hname), hfree] at hget
      cases hget
    | @stored name body mid hname _ hmid hfree =>
      have hnamed : t.refId ≠ none := by
        rw [hname]
        exact Option.some_ne_none name
      have hown : ((mid.define name (Fragment.overlay body t.keys)).2).get? name
          = some (Fragment.overlay body t.keys) := by
        rw [Store.get?_define, hfree, if_pos rfl]
        rfl
      have hle := le_trans (Store.le_define mid name (Fragment.overlay body t.keys)) hlater
      have hagain := body_again (hbody false) hmid hle
      have hsays := (says_bodyAgain_iff keyed hmid).mpr
        (hfirm.consistent hnamed store body mid hmid)
      rw [if_pos (hreply hnamed),
        compile_of_own keyed hname (Store.get?_of_le hlater hown) hagain,
        (beside_own_eq_toSchema_iff keyed).mpr hsays]

theorem repeats_body (keyed : t.Keyed) (below : t.SteadyBelow dialect) (beside : Bool) :
    Compile.Repeats (t.body dialect beside) :=
  repeats_body_of_children (fun c hc => c.repeats (keyed.child hc) (below c hc).1)
    (fun c hc => (below c hc).2) beside

/-- Compiling a site stores the site's own fragment: its identifier was free, and what stands
under it afterwards is what the shape became, with the keys written over it. -/
structure Registers (dialect : Dialect) (t : Site) (refId : String)
    (before after : Store Fragment) (body : Fragment) : Prop where
  name : t.refId = some refId
  free : before.get? refId = none
  compiles : ∃ mid, t.body dialect false before = .ok (body, mid)
  stored : after.get? refId = some (Fragment.overlay body t.keys)

end Site

/-! ## Schemas in use again -/

/-- A schema that has stored its own fragment is answered alike from then on, in every later state
of the run, and nothing more is stored for it. The answer is the bare reference exactly if the
stored fragment says what the schema's shape becomes now. If no schema below it changes its answer
once it is stored, this is so exactly if the document keys of the schema contradict nothing that
was compiled for it, and no type among them hides that null is accepted. -/
theorem Schema.reused_bare_iff {s : Schema} {refId : String} {dialect : Dialect} {reply : Reply}
    {before after : Store Fragment} {answer body : Fragment} (keyed : s.Keyed)
    (compiled : s.site.compile dialect reply before = .ok (answer, after))
    (registers : s.site.Registers dialect refId before after body) :
    ∃ again,
      (∀ reply later, after ≤ later → s.site.compile dialect reply later = .ok (again, later))
      ∧ (∀ generation definitions next, generation.schemas = after →
          Generation.steps dialect generation definitions = .ok next →
          ∀ reply, s.site.compile dialect reply next.schemas = .ok (again, next.schemas))
      ∧ (∃ body', (∀ later, after ≤ later → s.site.body dialect true later = .ok (body', later))
          ∧ (again = Reference.toSchema refId
            ↔ Fragment.Says (Fragment.overlay body s.site.keys) body'))
      ∧ (s.site.SteadyBelow dialect →
          (again = Reference.toSchema refId ↔ s.site.Consistent dialect body)) := by
  obtain ⟨hname, hfree, ⟨mid, hmid⟩, hstored⟩ := registers
  have hle : mid ≤ after := by
    obtain ⟨body', mid', hbody', _, hafter⟩ := Site.exists_body_of_free hname hfree compiled
    cases hmid.symm.trans hbody'
    rw [hafter]
    exact Store.le_define _ _ _
  -- Beside the stored fragment the shape comes to one and the same end from now on.
  obtain ⟨body', hbody'⟩ := (s.site.settles_body false true).2 before body mid hmid
  have hagain {later : Store Fragment} (hlater : after ≤ later) :
      s.site.body dialect true later = .ok (body', later) := hbody' later (le_trans hle hlater)
  have hcompile (reply : Reply) {later : Store Fragment} (hlater : after ≤ later) :=
    Site.compile_of_own keyed.site hname (Store.get?_of_le hlater hstored) (hagain hlater) reply
  have hbare : s.site.beside refId (Fragment.overlay body s.site.keys) body'
      = Reference.toSchema refId ↔ Fragment.Says (Fragment.overlay body s.site.keys) body' :=
    Site.beside_own_eq_toSchema_iff keyed.site
  refine ⟨_, fun reply later hlater => hcompile reply hlater, ?_, ⟨body', ?_, hbare⟩, ?_⟩
  · rintro generation definitions next rfl hrun reply
    exact hcompile reply (Generation.schemas_le_of_steps hrun)
  · exact fun later hlater => hagain hlater
  · intro below
    have hsame := Site.body_again (Site.repeats_body keyed.site below false) hmid hle
    rw [hagain (le_refl after)] at hsame
    cases hsame
    exact hbare.trans (Site.says_bodyAgain_iff keyed.site hmid)

/-- A named string that accepts null and goes by another type is never answered with the bare
reference: its fragment gives the type alone, and every later use adds null to it. -/
theorem Schema.overridden_null_returns :
    let s := ((Schema.ofKind (.string [])).nullable.annotate
      { fields := [("type", .string "integer")] }).named "X"
    ∃ answer after again,
      s.site.compile .types .reference {} = .ok (answer, after)
        ∧ after.get? "X" = some [("type", .string "integer")]
        ∧ (∀ reply later, after ≤ later → s.site.compile .types reply later = .ok (again, later))
        ∧ again ≠ Reference.toSchema "X" := by
  intro s
  have htext : (Schema.ofKind (.string [])).Keyed := .of_valueless (List.forall_mem_nil _) nofun rfl
  have hkeyed : s.Keyed := by
    refine .of_children (fun c hc => ?_) (fun _ _ _ hkind => ?_) fun value hvalue => ?_
    · rw [List.mem_singleton.mp hc]
      exact htext
    · cases hkind
    · rw [List.mem_singleton.mp hvalue]
      refine Json.everywhere_object.mpr ⟨by decide, fun e he => ?_⟩
      rw [List.mem_singleton.mp he]
      exact Json.everywhere_string _
  let own : Fragment := [("type", .string "integer")]
  let stored : Store Fragment := (({} : Store Fragment).define "X" own).2
  have hcompiled : s.site.compile .types .reference {} = .ok (Reference.toSchema "X", stored) := rfl
  have hregisters : s.site.Registers .types "X" {} stored own := ⟨rfl, rfl, ⟨_, rfl⟩, rfl⟩
  obtain ⟨again, halways, _, _, hbare⟩ := Schema.reused_bare_iff hkeyed hcompiled hregisters
  refine ⟨_, _, again, rfl, rfl, halways, fun h => ?_⟩
  have hconsistent := (hbare fun c hc => by cases hc).mp h
  cases (hconsistent rfl).1

end OpenApi
