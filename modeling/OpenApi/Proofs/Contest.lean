/-
# OpenApi.Proofs.Contest -- a site, compiled behind others and in front of them

The first compilation under an identifier is stored, and every later one is compared with it. So
what a site stores can depend on the sites that were compiled before it, but only through the
identifiers that are stored by then. Two runs of the site are followed side by side: one behind others,
and one in front of them. The invariant is that the run behind others has stored what these have, and
what the run in front has (`Contest.Agree`).

An identifier that is free in both runs is answered with the bare reference in both. Where it is stored
in the run behind others, the answers can differ. The fragment of the site is the same if they do not, or
if they are not written into it (`Contest.Undisputed`).
-/
import OpenApi.Proofs.Outcome
import OpenApi.Proofs.Recompilation

namespace OpenApi

/-! ## Beside what is stored -/

namespace Site

variable {dialect : Dialect} {t : Site} {reply : Reply} {store after : Store Fragment}
  {name : String} {answer : Fragment}

/-- The answer where a fragment is stored under the identifier of a site, given what stands for the
shape. -/
def answerTo (t : Site) (name : String) (stored body : Fragment) : Fragment :=
  if Entries.contains (t.said stored) "type" then Fragment.referenceAnd name (t.said stored)
  else t.beside name stored body

/-- What stands for the shape of a site can be compiled beside a stored fragment as well. -/
theorem exists_body_beside (h : t.compile dialect reply store = .ok (answer, after)) :
    ∃ body mid, t.body dialect true store = .ok (body, mid) := by
  cases compile_eq_ok_iff.mp h with
  | retyped _ _ hsaid =>
    obtain ⟨body, hbody⟩ := exists_body_of_said hsaid
    exact ⟨body, store, hbody⟩
  | reused _ _ _ hend => exact ⟨_, _, hend⟩
  | unnamed _ hend => exact ⟨_, _, body_beside hend⟩
  | taken _ _ hend _ => exact ⟨_, _, body_beside hend⟩
  | stored _ _ hmid _ => exact ⟨_, _, body_beside hmid⟩

/-- Where a fragment is stored under its identifier, a site is answered beside it, if what stands for the
shape can be compiled only to one end. -/
theorem answer_of_beside {stored body : Fragment} (hname : t.refId = some name)
    (hstored : store.get? name = some stored)
    (hbody : ∀ body' mid, t.body dialect true store = .ok (body', mid) → mid ≤ after → body' = body)
    (h : t.compile dialect reply store = .ok (answer, after)) :
    answer = t.answerTo name stored body := by
  rw [compile_of_stored hname hstored] at h
  by_cases hsaid : Entries.contains (t.said stored) "type" = true
  · rw [if_pos hsaid] at h
    cases h
    rw [answerTo, if_pos hsaid]
  · rw [if_neg hsaid] at h
    obtain ⟨body', mid, hmid, hanswer⟩ := Compile.of_bind_ok h
    obtain ⟨rfl, rfl⟩ := Compile.of_pure_ok hanswer
    rw [hbody body' _ hmid (le_refl _), answerTo, if_neg hsaid]

/-- A site is compiled as another one is, if it has its identifier and its keys, and if what stands for
its shape comes to the same from every store. -/
structure CompiledAs (dialect : Dialect) (u t : Site) : Prop where
  refId : u.refId = t.refId
  keys : u.keys = t.keys
  body : u.body dialect false = t.body dialect false

theorem CompiledAs.refl (dialect : Dialect) (t : Site) : CompiledAs dialect t t := ⟨rfl, rfl, rfl⟩

end Site

/-- A run of sites behind others. They are met with what others have stored, and what is left in the end
has it too. -/
structure Contest where
  dialect : Dialect
  met : Store Fragment
  left : Store Fragment

namespace Contest

variable {k : Contest} {name : String} {store store' mid mid' after after' : Store Fragment}

/-- If the identifier of a site is stored when the site is compiled in front, or when the sites are met
behind others, its answer in front is the one that it is given beside the fragment that is left. -/
def AnswersAlike (k : Contest) (t : Site) (reply : Reply) (there : Store Fragment) : Prop :=
  ∀ name stored, t.refId = some name → k.met.contains name = true ∨ there.contains name = true →
    k.left.get? name = some stored → ∀ answer after body mid,
      t.compile k.dialect reply there = .ok (answer, after) →
      t.body k.dialect true there = .ok (body, mid) → answer = t.answerTo name stored body

mutual

/-- While parts are compiled in front, it makes no difference to what is written that others have been
compiled before. -/
inductive Undisputed (k : Contest) : List Part → Store Fragment → Prop
  | nil (store : Store Fragment) : Undisputed k [] store
  | cons {p : Part} {rest : List Part} {store mid : Store Fragment} {answer : Fragment} :
      Indifferent k p store → p.site.compile k.dialect .reference store = .ok (answer, mid) →
      Undisputed k rest mid → Undisputed k (p :: rest) store

/-- It makes no difference to the answer for a part that others have been compiled before. -/
inductive Indifferent (k : Contest) : Part → Store Fragment → Prop
  /-- Nobody reads the answer. -/
  | dropped (t : Site) (store : Store Fragment) : Indifferent k ⟨t, none⟩ store
  /-- The answer is a reference to what is stored here, whatever that is. -/
  | fresh {t : Site} {name : String} {store : Store Fragment} :
      t.refId = some name → (∀ c ∈ t.children, ¬ c.Names name) → k.met.get? name = none →
      store.get? name = none → Indifferent k ⟨t, some .reference⟩ store
  /-- The answer is read off the parts below, beside what is left. -/
  | read {t : Site} {reply : Reply} {store : Store Fragment} :
      Undisputed k t.parts store → k.AnswersAlike t reply store → Indifferent k ⟨t, some reply⟩ store

end

theorem Undisputed.left {first second : List Part} (h : k.Undisputed (first ++ second) store) :
    k.Undisputed first store := by
  induction first generalizing store with
  | nil => exact .nil store
  | cons p rest ih =>
    cases h with
    | cons hpart hcompiled hrest => exact .cons hpart hcompiled (ih hrest)

theorem Undisputed.right {first second : List Part} (h : k.Undisputed (first ++ second) store)
    (hturns : Site.Turns k.dialect (first.map Part.site) store mid) : k.Undisputed second mid := by
  induction first generalizing store with
  | nil =>
    cases hturns
    exact h
  | cons p rest ih =>
    cases h with
    | cons _ hcompiled hrest =>
      cases hturns with
      | cons hcompiled' hturns =>
        cases hcompiled.symm.trans hcompiled'
        exact ih hrest hturns

/-! ## Two runs side by side -/

/-- A store of the run behind others has the identifiers that others have stored, and those that the store
of the run in front has. -/
def Agree (k : Contest) (store store' : Store Fragment) : Prop :=
  ∀ name, store.contains name = true ↔ k.met.contains name = true ∨ store'.contains name = true

/-- Others have compiled sites from where the run in front starts. -/
theorem agree_start (hle : store ≤ k.met) : k.Agree k.met store := fun _ =>
  ⟨Or.inl, fun h => h.elim id (Store.contains_of_le hle)⟩

/-- What a site comes across is stored in both runs. -/
theorem Agree.compile (agree : k.Agree store store') {t : Site} {reply reply' : Reply}
    {answer answer' : Fragment} (h : t.compile k.dialect reply store = .ok (answer, after))
    (h' : t.compile k.dialect reply' store' = .ok (answer', after')) : k.Agree after after' := by
  intro name
  rw [Site.contains_compile_iff h, Site.contains_compile_iff h', agree name, or_assoc]

/-- An identifier that is free in the run behind others is free in front. -/
theorem Agree.get?_eq_none (agree : k.Agree store store') (h : store.get? name = none) :
    store'.get? name = none := by
  cases hget : store'.get? name with
  | none => rfl
  | some stored =>
    have hcontains := (agree name).mpr (Or.inr (Store.contains_of_get? hget))
    rw [Store.not_contains_of_get? h] at hcontains
    cases hcontains

/-- An identifier that nobody has stored is free in the run behind others if it is free in front. -/
theorem Agree.get?_eq_none_of_met (agree : k.Agree store store') (hmet : k.met.get? name = none)
    (h : store'.get? name = none) : store.get? name = none := by
  cases hget : store.get? name with
  | none => rfl
  | some stored =>
    have hcontains := (agree name).mp (Store.contains_of_get? hget)
    rw [Store.not_contains_of_get? hmet, Store.not_contains_of_get? h] at hcontains
    exact hcontains.elim nofun nofun

/-- Where an identifier is free, it is stored in front later if it is stored behind others. -/
theorem Agree.exists_get?_of_free (agree : k.Agree store store') (agree' : k.Agree mid mid')
    (hfree : store.get? name = none) {stored : Fragment} (h : mid.get? name = some stored) :
    ∃ stored', mid'.get? name = some stored' := by
  refine Store.exists_get?_of_contains (((agree' name).mp (Store.contains_of_get? h)).resolve_left ?_)
  intro hmet
  have hcontains := (agree name).mpr (Or.inl hmet)
  rw [Store.not_contains_of_get? hfree] at hcontains
  cases hcontains

/-- A computation comes to the same end in both runs, if what the run behind others stores is left there. -/
def FollowsAt (k : Contest) {α : Type} (c : Compile α) (store store' : Store Fragment) : Prop :=
  ∀ a after a' after', c store = .ok (a, after) → c store' = .ok (a', after') → after ≤ k.left →
    a = a' ∧ k.Agree after after'

/-- A site is answered alike in both runs, if that it is compiled behind others makes no difference. -/
def Followed (k : Contest) (t : Site) : Prop :=
  ∀ reply store store', k.Agree store store' → k.Indifferent ⟨t, some reply⟩ store' →
    k.FollowsAt (t.compile k.dialect reply) store store'

/-- Parts that are compiled in turn are followed if their sites are. -/
theorem followsAt_inTurn {α : Type} {parts : List Part} {problem? : Option Problem} {act : Compile α}
    (h : Compile.InTurn k.dialect parts problem? act) (sites : ∀ p ∈ parts, k.Followed p.site) :
    ∀ store store', k.Agree store store' → k.Undisputed parts store' →
      k.FollowsAt act store store' := by
  induction h with
  | pure a =>
    intro store store' agree _ b after b' after' h h' _
    obtain ⟨rfl, rfl⟩ := Compile.of_pure_ok h
    obtain ⟨rfl, rfl⟩ := Compile.of_pure_ok h'
    exact ⟨rfl, agree⟩
  | fail problem =>
    intro store store' _ _ b after b' after' h _ _
    cases h
  | answered t reply =>
    intro store store' agree undisputed
    cases undisputed with
    | cons hpart _ _ => exact sites _ List.mem_cons_self reply store store' agree hpart
  | dropped t reply =>
    intro store store' agree _ _ after _ after' h h' _
    obtain ⟨answer, mid, hanswer, hend⟩ := Compile.of_bind_ok h
    obtain ⟨answer', mid', hanswer', hend'⟩ := Compile.of_bind_ok h'
    rw [(Compile.of_pure_ok hend).2, (Compile.of_pure_ok hend').2]
    exact ⟨rfl, agree.compile hanswer hanswer'⟩
  | bind hfirst hsecond ihfirst ihsecond =>
    intro store store' agree undisputed b after b' after' h h' hle
    obtain ⟨a, mid, ha, hb⟩ := Compile.of_bind_ok h
    obtain ⟨a', mid', ha', hb'⟩ := Compile.of_bind_ok h'
    have hmid : mid ≤ k.left := le_trans ((hsecond a).grows _ _ _ hb) hle
    obtain ⟨rfl, agree'⟩ := ihfirst (fun p hp => sites p (List.mem_append_left _ hp))
      store store' agree undisputed.left a mid a' mid' ha ha' hmid
    exact ihsecond a (fun p hp => sites p (List.mem_append_right _ hp)) mid mid' agree'
      (undisputed.right (.of_inTurn hfirst ha')) b after b' after' hb hb' hle

/-- What stands for the shape of a site is followed if its parts are. -/
theorem followsAt_body {t : Site} (parts : ∀ p ∈ t.parts, k.Followed p.site) (beside : Bool)
    (agree : k.Agree store store') (undisputed : k.Undisputed t.parts store') :
    k.FollowsAt (t.body k.dialect beside) store store' := by
  cases hover : t.override? with
  | some type =>
    rw [Site.body_of_override beside hover]
    exact followsAt_inTurn (.pure _) (fun _ hp => absurd hp List.not_mem_nil) store store' agree
      (.nil store')
  | none =>
    rw [Site.parts_eq hover] at parts undisputed
    rw [Site.body_of_shape beside hover]
    exact followsAt_inTurn (t.shape.inTurn_compile t.nullable t.default) parts store store' agree
      undisputed

section Answers

variable {t : Site} {reply : Reply} {answer answer' : Fragment}

/-- Where the identifier of a site is free and taken by no site below, the answer is a reference. -/
theorem answer_of_fresh (hname : t.refId = some name) (hbelow : ∀ c ∈ t.children, ¬ c.Names name)
    (hfree : store.get? name = none)
    (h : t.compile k.dialect .reference store = .ok (answer, after)) :
    answer = Reference.toSchema name := by
  obtain ⟨body, mid, hbody, hdefine, _⟩ := Site.exists_body_of_free hname hfree h
  rw [Site.define_of_get?_none _ ((Site.get?_body hbody hbelow).trans hfree)] at hdefine
  cases hdefine
  rfl

variable (agree : k.Agree store store')
  (hbody : ∀ beside, k.FollowsAt (t.body k.dialect beside) store store')
  (h : t.compile k.dialect reply store = .ok (answer, after))
  (h' : t.compile k.dialect reply store' = .ok (answer', after')) (hle : after ≤ k.left)

include agree hbody h h' hle

/-- Where the identifier of a site is stored in the run behind others, the site is answered alike if its
answer in front is the one beside what is left. -/
theorem answer_eq_of_stored {stored : Fragment} (halike : k.AnswersAlike t reply store')
    (hname : t.refId = some name) (hget : store.get? name = some stored) : answer = answer' := by
  have hleft : k.left.get? name = some stored :=
    Store.get?_of_le (le_trans (t.grows_compile reply _ _ _ h) hle) hget
  obtain ⟨body', mid', hbody'⟩ := Site.exists_body_beside h'
  rw [halike name stored hname ((agree name).mp (Store.contains_of_get? hget)) hleft answer' after' body'
    mid' h' hbody']
  refine Site.answer_of_beside hname hget (fun body mid hmid hmidle => ?_) h
  exact (hbody true body mid body' mid' hmid hbody' (le_trans hmidle hle)).1

/-- Where the identifier of a site is free in the run behind others, the site is answered alike if what
stands for its shape is the same. -/
theorem answer_eq_of_free (hname : t.refId = some name) (hfree : store.get? name = none) :
    answer = answer' := by
  obtain ⟨body, mid, hmid, hdefine, hafter⟩ := Site.exists_body_of_free hname hfree h
  obtain ⟨body', mid', hmid', hdefine', _⟩ :=
    Site.exists_body_of_free hname (agree.get?_eq_none hfree) h'
  have hmidle : mid ≤ after := by
    rw [hafter]
    exact Store.le_define _ _ _
  obtain ⟨rfl, agree'⟩ := hbody false body mid body' mid' hmid hmid' (le_trans hmidle hle)
  cases hget : mid.get? name with
  | none =>
    rw [Site.define_of_get?_none _ hget] at hdefine
    rw [Site.define_of_get?_none _ (agree'.get?_eq_none hget)] at hdefine'
    cases hdefine
    cases hdefine'
    rfl
  | some stored =>
    -- A site below has taken the identifier, in front as well.
    obtain ⟨stored', hget'⟩ := agree.exists_get?_of_free agree' hfree hget
    rw [Site.define_of_get?_some _ hget] at hdefine
    rw [Site.define_of_get?_some _ hget'] at hdefine'
    cases hdefine
    cases hdefine'
    rfl

end Answers

/-- Every site is followed. -/
theorem followed (t : Site) : k.Followed t := by
  induction t using Site.induction with
  | step t ih =>
    have parts (p : Part) (hp : p ∈ t.parts) : k.Followed p.site := by
      refine ih p.site ?_
      rw [← t.sites_parts]
      exact List.mem_map_of_mem hp
    intro reply store store' agree hpart answer after answer' after' h h' hle
    refine ⟨?_, agree.compile h h'⟩
    cases hpart with
    | fresh hname hbelow hmet hfree =>
      have hfreeToo := agree.get?_eq_none_of_met hmet hfree
      rw [answer_of_fresh hname hbelow hfreeToo h, answer_of_fresh hname hbelow hfree h']
    | read undisputed halike =>
      have hbody (beside : Bool) := followsAt_body parts beside agree undisputed
      cases hname : t.refId with
      | none =>
        obtain ⟨body, hmid, rfl⟩ := Site.answer_of_unnamed hname h
        obtain ⟨body', hmid', rfl⟩ := Site.answer_of_unnamed hname h'
        rw [(hbody false body after body' after' hmid hmid' hle).1]
      | some name =>
        cases hget : store.get? name with
        | some stored => exact answer_eq_of_stored agree hbody h h' hle halike hname hget
        | none => exact answer_eq_of_free agree hbody h h' hle hname hget

/-- If it makes no difference below a site that others have been compiled, and if its identifier is free
where it is met and taken by no site below, it stores there under its identifier what it stores in front;
and so does every site that is compiled as it is. -/
theorem get?_of_compiledAs {t u : Site} (undisputed : k.Undisputed t.parts store)
    (hle : store ≤ k.met) (hname : t.refId = some name) (hbelow : ∀ c ∈ t.children, ¬ c.Names name)
    (hfree : k.met.get? name = none) (compiledAs : Site.CompiledAs k.dialect u t) {reply reply' : Reply}
    {answer answer' : Fragment} (hfront : t.compile k.dialect reply' store = .ok (answer', after'))
    (h : u.compile k.dialect reply k.met = .ok (answer, after)) (hleft : after ≤ k.left) :
    after.get? name = after'.get? name := by
  have hfree' : store.get? name = none := Store.get?_eq_none_of_le hle hfree
  obtain ⟨body', mid', hmid', _⟩ := Site.exists_body_of_free hname hfree' hfront
  obtain ⟨body, mid, hmid, _, hafter⟩ :=
    Site.exists_body_of_free (compiledAs.refId.trans hname) hfree h
  have hmidle : mid ≤ after := by
    rw [hafter]
    exact Store.le_define _ _ _
  rw [Site.get?_of_fresh (compiledAs.refId.trans hname) hfree hmid h,
    Site.get?_of_fresh hname hfree' hmid' hfront]
  rw [compiledAs.body] at hmid
  obtain ⟨rfl, _⟩ := followsAt_body (fun p _ => followed p.site) false (agree_start hle) undisputed
    body mid body' mid' hmid hmid' (le_trans hmidle hleft)
  rw [Site.get?_body hmid hbelow, hfree, Site.get?_body hmid' hbelow, hfree', compiledAs.keys]

end Contest

end OpenApi
