/-
# OpenApi.Proofs.Visits -- what a compilation comes to, whatever is stored

What is stored decides how a compilation answers, but not what it comes to: whether it ends with
a problem, and with which, or which names it stores. `Compile.Yields` states this of a computation
once and for all stores, and `Compile.SameOutcome` of two computations that come to the same. The
relation passes to sequences, so it passes from sites to whole operations, in any two dialects.

A registration is no exception, once its name and location agree with what is registered.
-/
import Mathlib.Data.Set.Basic
import OpenApi.Proofs.Outcome

namespace OpenApi

/-! ## Outcomes -/

namespace Compile

variable {α β : Type} {c : Compile α} {k : α → Compile β} {names : Set String}
  {outcome outcome' : Except Problem (Set String)}

/-- Whatever is stored, a computation ends with the given problem, or comes to an end and stores
the given names besides those that are there. -/
def Yields (c : Compile α) : Except Problem (Set String) → Prop
  | .error problem => ∀ store, c store = .error problem
  | .ok names => ∀ store, ∃ a after, c store = .ok (a, after)
      ∧ ∀ name, after.contains name = true ↔ store.contains name = true ∨ name ∈ names

/-- Two computations come to the same, whatever is stored for either. -/
def SameOutcome (c c' : Compile α) : Prop := ∃ outcome, c.Yields outcome ∧ c'.Yields outcome

/-- The names are known from a run on nothing. -/
theorem Yields.unique (h : c.Yields outcome) (h' : c.Yields outcome') : outcome = outcome' := by
  cases outcome with
  | error problem =>
    have hrun : c {} = .error problem := h {}
    cases outcome' with
    | error problem' =>
      rw [show c {} = .error problem' from h' {}] at hrun
      cases hrun
      rfl
    | ok names' =>
      obtain ⟨a, after, hrun', _⟩ := h' {}
      rw [hrun'] at hrun
      cases hrun
  | ok names =>
    obtain ⟨a, after, hrun, hnames⟩ := h {}
    cases outcome' with
    | error problem' =>
      rw [show c {} = .error problem' from h' {}] at hrun
      cases hrun
    | ok names' =>
      obtain ⟨a', after', hrun', hnames'⟩ := h' {}
      rw [hrun] at hrun'
      cases hrun'
      congr 1
      ext name
      have hempty : ({} : Store Fragment).contains name = false := rfl
      simpa [hempty] using (hnames name).symm.trans (hnames' name)

theorem Yields.pure (a : α) : (Pure.pure a : Compile α).Yields (.ok ∅) :=
  fun store => ⟨a, store, rfl, by simp⟩

theorem Yields.bind_error {problem : Problem} (h : c.Yields (.error problem)) :
    (c >>= k).Yields (.error problem) := fun store => bind_apply_error (h store)

theorem Yields.bind_ok (h : c.Yields (.ok names)) (hk : ∀ a, (k a).Yields outcome) :
    (c >>= k).Yields (outcome.map (names ∪ ·)) := by
  cases outcome with
  | error problem =>
    intro store
    obtain ⟨a, mid, hrun, _⟩ := h store
    rw [bind_apply_ok hrun]
    exact hk a mid
  | ok names' =>
    intro store
    obtain ⟨a, mid, hrun, hnames⟩ := h store
    obtain ⟨b, after, hrun', hnames'⟩ := hk a mid
    refine ⟨b, after, (bind_apply_ok hrun).trans hrun', fun name => ?_⟩
    rw [hnames', hnames, Set.mem_union, or_assoc]

theorem Yields.mapProblem (f : Problem → Problem) (h : c.Yields outcome) :
    (Compile.mapProblem f c).Yields (outcome.mapError f) := by
  cases outcome with
  | error problem =>
    intro store
    unfold Compile.mapProblem
    rw [show c store = .error problem from h store]
    rfl
  | ok names =>
    intro store
    obtain ⟨a, after, hrun, hnames⟩ := h store
    exact ⟨a, after, mapProblem_apply_ok.mpr hrun, hnames⟩

/-- Coming to the same passes to sequences. -/
theorem parallel_sameOutcome : Parallel @SameOutcome where
  pure a a' := ⟨_, .pure a, .pure a'⟩
  fail problem := ⟨.error problem, fun _ => rfl, fun _ => rfl⟩
  bind := by
    rintro α β c c' k k' ⟨outcome, hc, hc'⟩ hk
    cases outcome with
    | error problem => exact ⟨.error problem, hc.bind_error, hc'.bind_error⟩
    | ok names =>
      -- What the rests come to does not depend on the results that they go on from.
      obtain ⟨a, _, _, _⟩ := hc {}
      obtain ⟨a', _, _, _⟩ := hc' {}
      obtain ⟨outcome, ha, ha'⟩ := hk a a'
      have hrest (b) : (k b).Yields outcome := by
        obtain ⟨outcome', hb, hb'⟩ := hk b a'
        rwa [ha'.unique hb']
      have hrest' (b') : (k' b').Yields outcome := by
        obtain ⟨outcome', hb, hb'⟩ := hk a b'
        rwa [ha.unique hb]
      exact ⟨_, hc.bind_ok hrest, hc'.bind_ok hrest'⟩
  mapProblem := by
    rintro α f c c' ⟨outcome, hc, hc'⟩
    exact ⟨_, hc.mapProblem f, hc'.mapProblem f⟩

theorem SameOutcome.yields {c' : Compile α} (h : SameOutcome c c') (hc : c.Yields outcome) :
    c'.Yields outcome := by
  obtain ⟨outcome', hsame, hsame'⟩ := h
  rwa [hc.unique hsame]

/-- A computation that comes to an end once always does, and so does one that comes to the same. -/
theorem SameOutcome.yields_ok {c' : Compile α} (h : SameOutcome c c') {store after : Store Fragment}
    {a : α} (hrun : c store = .ok (a, after)) : ∃ names, c'.Yields (.ok names) := by
  obtain ⟨outcome, hc, hc'⟩ := h
  cases outcome with
  | error problem =>
    rw [show c store = .error problem from hc store] at hrun
    cases hrun
  | ok names => exact ⟨names, hc'⟩

theorem Yields.contains_iff (h : c.Yields (.ok names)) {store after : Store Fragment} {a : α}
    (hrun : c store = .ok (a, after)) (name : String) :
    after.contains name = true ↔ store.contains name = true ∨ name ∈ names := by
  obtain ⟨a', after', hrun', hnames⟩ := h store
  rw [hrun] at hrun'
  cases hrun'
  exact hnames name

end Compile

/-! ## Sites and operations -/

section Dialects

variable {dialect dialect' : Dialect}

/-- A site that compiles anywhere stores the names that it comes across, in every dialect. -/
theorem Site.yields_names {t : Site} {reply : Reply} {store after : Store Fragment}
    {answer : Fragment} (h : t.compile dialect reply store = .ok (answer, after)) (reply' : Reply) :
    (t.compile dialect' reply').Yields (.ok {name | t.Names name}) := by
  intro store'
  have hsame : (t.compile dialect reply).problem? store = (t.compile dialect' reply').problem? store' :=
    t.sameProblem reply reply' store store'
  rw [Compile.problem?_of_ok h] at hsame
  obtain ⟨answer', after', h'⟩ := Compile.exists_ok_of_problem? hsame.symm
  exact ⟨answer', after', h', fun name => contains_compile_iff h'⟩

theorem Site.sameOutcome (t : Site) (reply reply' : Reply) :
    Compile.SameOutcome (t.compile dialect reply) (t.compile dialect' reply') := by
  cases hrun : t.compile dialect reply {} with
  | ok p => exact ⟨_, yields_names hrun reply, yields_names hrun reply'⟩
  | error problem =>
    have hfails {dialect' : Dialect} (reply' : Reply) :
        (t.compile dialect' reply').Yields (.error problem) := by
      intro store
      have hsame : (t.compile dialect reply).problem? {} = (t.compile dialect' reply').problem? store :=
        t.sameProblem reply reply' {} store
      rw [Compile.problem?_of_error hrun] at hsame
      cases hrun' : t.compile dialect' reply' store with
      | ok p =>
        rw [Compile.problem?_of_ok hrun'] at hsame
        cases hsame
      | error problem' =>
        rw [Compile.problem?_of_error hrun'] at hsame
        cases hsame
        rfl
    exact ⟨.error problem, hfails reply, hfails reply'⟩

theorem Route.sameOutcome (r : Route) {registered registered' : Store Fragment}
    (alike : Parameter.Alike registered registered') :
    Compile.SameOutcome (r.compile dialect registered) (r.compile dialect' registered') :=
  r.compile_parallel Compile.parallel_sameOutcome Schema.hereditary_true
    (fun s _ => s.site.sameOutcome .reference .reference) alike fun _ _ => trivial

/-- An operation that compiles once compiles whatever is stored. -/
theorem Route.yields_ok {r : Route} {registered store after : Store Fragment} {answer : Fragment}
    (h : r.compile dialect registered store = .ok (answer, after)) :
    ∃ names, (r.compile dialect registered).Yields (.ok names) := by
  have hsame : Compile.SameOutcome (r.compile dialect registered) (r.compile dialect registered) :=
    r.sameOutcome (.refl registered)
  exact hsame.yields_ok h

end Dialects

/-! ## Registrations -/

/-- A registration goes through if the schema declares a name and a location and compiles, and if
no other name or location is registered under its identifier. -/
theorem Parameter.register_ok {dialect : Dialect} {registered : Store Fragment} {s : Schema}
    {signature : Option String × Option String} (hdeclared : declared? s = some signature)
    {names : Set String} (hyields : (s.site.compile dialect .reference).Yields (.ok names))
    (hagree : ∀ refId old, s.refId? = some refId → signature? registered refId = some old →
      old = signature) (store : Store Fragment) :
    ∃ updated after, register dialect registered s store = .ok (updated, after) := by
  obtain ⟨answer, mid, hrun, _⟩ := hyields store
  rcases compile_cases s with ⟨hnone, _⟩ | ⟨name, location, hsome, hcompile⟩
  · rw [hdeclared] at hnone
    cases hnone
  · rw [hdeclared] at hsome
    cases hsome
    rw [register_eq, hcompile, bind_assoc]
    unfold compileBare
    rw [bind_assoc, Compile.bind_apply_ok hrun, pure_bind, pure_bind]
    generalize Entries.extend _ _ = bare
    simp_rw [← signatureOf_placed bare name location] at hagree
    obtain ⟨updated, hentered⟩ := enter_ok hagree mid
    exact ⟨updated, mid, hentered⟩

end OpenApi
