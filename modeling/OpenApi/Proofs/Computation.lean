/-
# OpenApi.Proofs.Computation -- reasoning about compilations

Stores are ordered by growth: a later store holds what an earlier one held, in its place.
Most facts about compiling hold for a reason that has nothing to do with schemas: they hold
of returning a value and of ending with a problem, and they pass from two computations to
their sequence. `Compile.Sequential` names such properties, and `Compile.Parallel` such relations
between two computations; what has to be proved of a particular compilation is then only the step
that reads or writes the store. A relation that looks at the problems with which computations end is
`Compile.Chained`: it passes to sequences, and each problem has to be looked at.
-/
import Mathlib.Order.Defs.PartialOrder
import OpenApi.Proofs.Entries
import OpenApi.Site.Compile

namespace OpenApi

/-! ## Growth of stores -/

namespace Store

variable {α : Type}

/-- A store grows when values are stored behind those it has. -/
instance : Preorder (Store α) where
  le before after := before.entries <+: after.entries
  le_refl store := List.prefix_refl _
  le_trans _ _ _ h h' := h.trans h'

theorem get?_of_le {before after : Store α} (h : before ≤ after) {name : String} {value : α}
    (hv : before.get? name = some value) : after.get? name = some value := by
  obtain ⟨new, hnew⟩ := h
  rw [get?, ← hnew, Entries.get?_append]
  rw [get?] at hv
  rw [hv]
  rfl

theorem get?_eq_none_of_le {before after : Store α} (h : before ≤ after) {name : String}
    (hnone : after.get? name = none) : before.get? name = none := by
  cases hget : before.get? name with
  | none => rfl
  | some value =>
    rw [get?_of_le h hget] at hnone
    cases hnone

theorem contains_eq_isSome (store : Store α) (name : String) :
    store.contains name = (store.get? name).isSome := rfl

theorem contains_of_get? {store : Store α} {name : String} {value : α}
    (h : store.get? name = some value) : store.contains name = true := by
  rw [contains_eq_isSome, h]
  rfl

theorem exists_get?_of_contains {store : Store α} {name : String}
    (h : store.contains name = true) : ∃ value, store.get? name = some value :=
  Option.isSome_iff_exists.mp h

theorem contains_of_le {before after : Store α} (h : before ≤ after) {name : String}
    (hc : before.contains name = true) : after.contains name = true := by
  obtain ⟨value, hv⟩ := exists_get?_of_contains hc
  exact contains_of_get? (get?_of_le h hv)

theorem not_contains_of_get? {store : Store α} {name : String} (h : store.get? name = none) :
    store.contains name = false := by
  rw [contains_eq_isSome, h]
  rfl

theorem define_of_get?_none {store : Store α} {name : String} (value : α)
    (h : store.get? name = none) :
    store.define name value = (true, ⟨store.entries ++ [(name, value)]⟩) := by
  simp [define, not_contains_of_get? h]

theorem define_of_get?_some {store : Store α} {name : String} {old : α} (value : α)
    (h : store.get? name = some old) : store.define name value = (false, store) :=
  define_of_contains value (contains_of_get? h)

theorem le_define (store : Store α) (name : String) (value : α) :
    store ≤ (store.define name value).2 := by
  unfold define
  split
  · exact le_refl store
  · exact ⟨[(name, value)], rfl⟩

theorem get?_define (store : Store α) (name other : String) (value : α) :
    (store.define name value).2.get? other
      = (store.get? other).or (if other = name then some value else none) := by
  cases h : store.get? name with
  | some old =>
    rw [define_of_get?_some value h]
    by_cases hn : other = name
    · rw [hn, h]
      rfl
    · rw [if_neg hn, Option.or_none]
  | none =>
    rw [define_of_get?_none value h]
    show Entries.get? (store.entries ++ [(name, value)]) other = _
    rw [Entries.get?_append]
    by_cases hn : other = name
    · simp [get?, Entries.get?, hn]
    · have hn' : name ≠ other := fun hno => hn hno.symm
      simp [get?, Entries.get?, hn, hn']

theorem contains_define_iff {store : Store α} {name other : String} {value : α} :
    (store.define name value).2.contains other = true
      ↔ store.contains other = true ∨ other = name := by
  rw [contains_eq_isSome, get?_define, contains_eq_isSome, Option.isSome_or]
  split <;> simp [*]

theorem contains_define (store : Store α) (name : String) (value : α) :
    (store.define name value).2.contains name = true :=
  contains_define_iff.mpr (Or.inr rfl)

/-- A store in which every name stands once. Stores that begin empty stay so. -/
def Unique (store : Store α) : Prop := (Entries.keys store.entries).Nodup

theorem Unique.define {store : Store α} (h : store.Unique) (name : String) (value : α) :
    (store.define name value).2.Unique := by
  cases hn : store.get? name with
  | some old =>
    rw [define_of_get?_some value hn]
    exact h
  | none =>
    rw [define_of_get?_none value hn]
    show (Entries.keys (store.entries ++ [(name, value)])).Nodup
    rw [Entries.keys, List.map_append]
    refine List.nodup_append.mpr ⟨h, List.nodup_singleton _, ?_⟩
    intro a ha b hb hab
    have hb' : b = name := List.mem_singleton.mp hb
    exact Entries.get?_eq_none_iff.mp hn (hb' ▸ hab ▸ ha)

/-- A later store has a property if an earlier one had it. -/
def Preserves (I : Store α → Prop) (before after : Store α) : Prop := I before → I after

theorem Preserves.refl (I : Store α → Prop) (store : Store α) : Preserves I store store := id

theorem Preserves.trans (I : Store α → Prop) (first second third : Store α)
    (h : Preserves I first second) (h' : Preserves I second third) : Preserves I first third :=
  h' ∘ h

end Store

/-! ## Runs of computations -/

namespace Compile

variable {α β : Type}

theorem pure_apply (a : α) (store : Store Fragment) :
    (pure a : Compile α) store = .ok (a, store) := rfl

theorem fail_apply (problem : Problem) (store : Store Fragment) :
    (fail problem : Compile α) store = .error problem := rfl

theorem bind_apply_ok {c : Compile α} {k : α → Compile β} {store mid : Store Fragment} {a : α}
    (h : c store = .ok (a, mid)) : (c >>= k) store = k a mid := by
  show (c store >>= fun p => k p.1 p.2) = _
  rw [h]
  rfl

theorem bind_apply_error {c : Compile α} {k : α → Compile β} {store : Store Fragment}
    {problem : Problem} (h : c store = .error problem) : (c >>= k) store = .error problem := by
  show (c store >>= fun p => k p.1 p.2) = _
  rw [h]
  rfl

/-- A sequence that comes to an end passed through an end of its first part. -/
theorem of_bind_ok {c : Compile α} {k : α → Compile β} {store after : Store Fragment} {b : β}
    (h : (c >>= k) store = .ok (b, after)) :
    ∃ a mid, c store = .ok (a, mid) ∧ k a mid = .ok (b, after) := by
  cases hc : c store with
  | error problem =>
    rw [bind_apply_error hc] at h
    cases h
  | ok p =>
    obtain ⟨a, mid⟩ := p
    rw [bind_apply_ok hc] at h
    exact ⟨a, mid, rfl, h⟩

theorem of_pure_ok {a b : α} {store after : Store Fragment}
    (h : (pure a : Compile α) store = .ok (b, after)) : b = a ∧ after = store := by
  rw [pure_apply] at h
  cases h
  exact ⟨rfl, rfl⟩

/-- A sequence ends with a problem where its first part does, or where what follows does. -/
theorem bind_eq_error_iff {c : Compile α} {k : α → Compile β} {store : Store Fragment}
    {problem : Problem} :
    (c >>= k) store = .error problem
      ↔ c store = .error problem ∨ ∃ a mid, c store = .ok (a, mid) ∧ k a mid = .error problem := by
  cases hc : c store with
  | error problem' =>
    rw [bind_apply_error hc]
    constructor
    · intro h
      cases h
      exact Or.inl rfl
    · rintro (h | ⟨a, mid, hok, -⟩)
      · cases h
        rfl
      · cases hok
  | ok p =>
    rw [bind_apply_ok hc]
    constructor
    · exact fun h => Or.inr ⟨p.1, p.2, rfl, h⟩
    · rintro (h | ⟨a, mid, hok, h⟩)
      · cases h
      · cases hok
        exact h

theorem mapProblem_apply_error {f : Problem → Problem} {c : Compile α} {store : Store Fragment}
    {problem : Problem} :
    mapProblem f c store = .error problem ↔ ∃ raw, c store = .error raw ∧ problem = f raw := by
  unfold mapProblem
  cases c store with
  | error raw =>
    constructor
    · intro h
      cases h
      exact ⟨raw, rfl, rfl⟩
    · rintro ⟨raw', hraw, rfl⟩
      cases hraw
      rfl
  | ok p =>
    constructor
    · intro h
      cases h
    · rintro ⟨raw, hraw, -⟩
      cases hraw

theorem mapProblem_apply_ok {f : Problem → Problem} {c : Compile α} {store after : Store Fragment}
    {a : α} : mapProblem f c store = .ok (a, after) ↔ c store = .ok (a, after) := by
  unfold mapProblem
  cases c store with
  | error problem => constructor <;> intro h <;> cases h
  | ok p => exact Iff.rfl

/-- A computation whose result, wherever it comes to an end, has a property. -/
def Ends (good : α → Prop) (c : Compile α) : Prop :=
  ∀ store a after, c store = .ok (a, after) → good a

section Ends

variable {good : α → Prop} {good' : β → Prop}

theorem Ends.pure {a : α} (h : good a) : Ends good (Pure.pure a) := by
  intro store b after hb
  rw [(of_pure_ok hb).1]
  exact h

theorem Ends.fail (problem : Problem) : Ends good (Compile.fail problem) := by
  intro store a after h
  cases h

theorem Ends.bind {c : Compile α} {k : α → Compile β} (hc : Ends good c)
    (hk : ∀ a, good a → Ends good' (k a)) : Ends good' (c >>= k) := by
  intro store b after h
  obtain ⟨a, mid, ha, hb⟩ := of_bind_ok h
  exact hk a (hc store a mid ha) mid b after hb

theorem Ends.mapProblem {f : Problem → Problem} {c : Compile α} (hc : Ends good c) :
    Ends good (Compile.mapProblem f c) :=
  fun store a after h => hc store a after (mapProblem_apply_ok.mp h)

/-- A result that owes nothing to the first part of a sequence. -/
theorem Ends.after {c : Compile α} {k : α → Compile β} (hk : ∀ a, Ends good' (k a)) :
    Ends good' (c >>= k) := by
  intro store b after h
  obtain ⟨a, mid, _, hb⟩ := of_bind_ok h
  exact hk a mid b after hb

end Ends

/-- A property of computations that holds of those that leave the store alone, and passes to
sequences. -/
structure Sequential (P : ∀ {α : Type}, Compile α → Prop) : Prop where
  pure : ∀ {α : Type} (a : α), P (Pure.pure a : Compile α)
  fail : ∀ {α : Type} (problem : Problem), P (Compile.fail problem : Compile α)
  bind : ∀ {α β : Type} {c : Compile α} {k : α → Compile β},
    P c → (∀ a, P (k a)) → P (c >>= k)
  mapProblem : ∀ {α : Type} (f : Problem → Problem) {c : Compile α}, P c → P (mapProblem f c)

/-- A relation between computations that holds of any two that return a value, and passes to
sequences whatever their first parts end with. -/
structure Chained (R : ∀ {α : Type}, Compile α → Compile α → Prop) : Prop where
  pure : ∀ {α : Type} (a a' : α), R (Pure.pure a : Compile α) (Pure.pure a')
  bind : ∀ {α β : Type} {c c' : Compile α} {k k' : α → Compile β},
    R c c' → (∀ a a', R (k a) (k' a')) → R (c >>= k) (c' >>= k')

/-- A relation between computations that holds of any two that leave the store alone alike, and
passes to sequences whatever their first parts end with. -/
structure Parallel (R : ∀ {α : Type}, Compile α → Compile α → Prop) : Prop extends Chained @R where
  fail : ∀ {α : Type} (problem : Problem),
    R (Compile.fail problem : Compile α) (Compile.fail problem)
  mapProblem : ∀ {α : Type} (f : Problem → Problem) {c c' : Compile α},
    R c c' → R (mapProblem f c) (mapProblem f c')

/-- What passes to sequences passes to two sequences side by side. -/
theorem Sequential.parallel {P : ∀ {α : Type}, Compile α → Prop} (hP : Sequential @P) :
    Parallel fun c c' => P c ∧ P c' where
  pure a a' := ⟨hP.pure a, hP.pure a'⟩
  fail problem := ⟨hP.fail problem, hP.fail problem⟩
  bind hc hk := ⟨hP.bind hc.1 fun a => (hk a a).1, hP.bind hc.2 fun a => (hk a a).2⟩
  mapProblem f _ _ hc := ⟨hP.mapProblem f hc.1, hP.mapProblem f hc.2⟩

/-- A computation that takes the store from one to another only where they are related. -/
def Moves (R : Store Fragment → Store Fragment → Prop) {γ : Type} (c : Compile γ) : Prop :=
  ∀ store a after, c store = .ok (a, after) → R store after

theorem moves_sequential {R : Store Fragment → Store Fragment → Prop} (refl : ∀ store, R store store)
    (trans : ∀ first second third, R first second → R second third → R first third) :
    Sequential (@Moves R) where
  pure a := by
    intro store b after h
    rw [(of_pure_ok h).2]
    exact refl store
  fail problem := by
    intro store a after h
    cases h
  bind hc hk := by
    intro store b after h
    obtain ⟨a, mid, ha, hb⟩ := of_bind_ok h
    exact trans _ _ _ (hc store a mid ha) (hk a mid b after hb)
  mapProblem f _ hc := by
    intro store a after h
    exact hc store a after (mapProblem_apply_ok.mp h)

/-- A computation that only adds to the store. -/
abbrev Grows {γ : Type} (c : Compile γ) : Prop := Moves (· ≤ ·) c

theorem grows_sequential : Sequential @Grows :=
  moves_sequential le_refl fun _ _ _ => le_trans

end Compile

end OpenApi
