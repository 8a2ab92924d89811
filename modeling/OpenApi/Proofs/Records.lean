/-
# OpenApi.Proofs.Records -- what a record takes from what was written

A record knows an object by its keys: what it reads under a known key is the one value that was
written there, and what it keeps besides are the values under the keys that it does not know. Both
agree with the plain value of the object, in which a repeated key has its last value. A known key
does not read the members under other keys, so these may be set aside.
-/
import OpenApi.Decode.Record
import OpenApi.Proofs.Json

namespace OpenApi

/-! ## Values -/

namespace Json.Written

theorem memberValues?_cons_eq_some {f : String × Written} {rest : List (String × Written)}
    {values : List (String × Json)} (h : memberValues? (f :: rest) = some values) :
    ∃ v vs, f.2.value? = some v ∧ memberValues? rest = some vs ∧ values = (f.1, v) :: vs := by
  obtain ⟨key, w⟩ := f
  simp only [memberValues?] at h
  split at h
  · rename_i v vs hv hvs
    exact ⟨v, vs, hv, hvs, (Option.some.inj h).symm⟩
  · cases h

theorem exists_memberValues? {members : List (String × Written)}
    (h : ∀ f ∈ members, f.2.value?.isSome = true) :
    ∃ values, memberValues? members = some values := by
  induction members with
  | nil => exact ⟨[], rfl⟩
  | cons f rest ih =>
    obtain ⟨v, hv⟩ := Option.isSome_iff_exists.mp (h f List.mem_cons_self)
    obtain ⟨vs, hvs⟩ := ih fun g hg => h g (List.mem_cons_of_mem _ hg)
    exact ⟨(f.1, v) :: vs, by rw [memberValues?, hv, hvs]⟩

theorem isSome_of_memberValues? {members : List (String × Written)} {values : List (String × Json)}
    (h : memberValues? members = some values) : ∀ f ∈ members, f.2.value?.isSome = true := by
  induction members generalizing values with
  | nil =>
    intro f hf
    cases hf
  | cons first rest ih =>
    obtain ⟨v, vs, hv, hvs, -⟩ := memberValues?_cons_eq_some h
    intro f hf
    rcases List.mem_cons.mp hf with rfl | hf
    · rw [hv]
      rfl
    · exact ih hvs f hf

/-- A choice of members by their keys is the same choice of their values. -/
theorem memberValues?_filter {members : List (String × Written)} {values : List (String × Json)}
    (h : memberValues? members = some values) (p : String → Bool) :
    memberValues? (members.filter fun f => p f.1) = some (values.filter fun e => p e.1) := by
  induction members generalizing values with
  | nil =>
    obtain rfl := Option.some.inj h
    rfl
  | cons f rest ih =>
    obtain ⟨v, vs, hv, hvs, rfl⟩ := memberValues?_cons_eq_some h
    by_cases hp : p f.1 = true
    · simp only [List.filter_cons, hp, if_true]
      rw [memberValues?, hv, ih hvs]
    · simp only [List.filter_cons, hp]
      exact ih hvs

mutual

/-- In the value of what was written no object repeats a key. -/
theorem distinct_value? {w : Written} {v : Json} (h : w.value? = some v) : v.Distinct := by
  match w with
  | .null =>
    obtain rfl := Option.some.inj h
    exact everywhere_null
  | .bool b =>
    obtain rfl := Option.some.inj h
    exact everywhere_bool b
  | .number n =>
    obtain rfl := Option.some.inj h
    exact everywhere_number n
  | .string s =>
    obtain rfl := Option.some.inj h
    exact everywhere_string s
  | .array items =>
    obtain ⟨vs, hvs, rfl⟩ := Option.map_eq_some_iff.mp h
    exact everywhere_array.mpr (distinct_values? hvs)
  | .object members =>
    obtain ⟨values, hvalues, rfl⟩ := Option.map_eq_some_iff.mp h
    exact everywhere_object.mpr ⟨Entries.nodup_keys_collect values, fun e he =>
      distinct_memberValues? hvalues e (Entries.mem_of_mem_collect he)⟩

theorem distinct_values? {items : List Written} {vs : List Json} (h : values? items = some vs) :
    ∀ v ∈ vs, v.Distinct := by
  match items with
  | [] =>
    obtain rfl := Option.some.inj h
    intro v hv
    cases hv
  | item :: rest =>
    simp only [values?] at h
    split at h
    · rename_i v vs hv hvs
      obtain rfl := Option.some.inj h
      intro x hx
      rcases List.mem_cons.mp hx with rfl | hx
      · exact distinct_value? hv
      · exact distinct_values? hvs x hx
    · cases h

theorem distinct_memberValues? {members : List (String × Written)} {values : List (String × Json)}
    (h : memberValues? members = some values) : ∀ e ∈ values, e.2.Distinct := by
  match members with
  | [] =>
    obtain rfl := Option.some.inj h
    intro e he
    cases he
  | (key, item) :: rest =>
    obtain ⟨v, vs, hv, hvs, rfl⟩ := memberValues?_cons_eq_some h
    intro e he
    rcases List.mem_cons.mp he with rfl | he
    · exact distinct_value? hv
    · exact distinct_memberValues? hvs e he

end

end Json.Written

namespace Decode

open Json (Written)

/-! ## Known keys -/

section Known

variable {α : Type} {fields : Fields} {key : String}

theorem single?_eq_some_some {w : Written} (h : single? fields key = some (some w)) :
    (fields.filter fun f => f.1 == key) = [(key, w)] := by
  unfold single? at h
  split at h
  · cases h
  · rename_i k w' hfilter
    obtain rfl := Option.some.inj (Option.some.inj h)
    have hmem : (k, w') ∈ fields.filter fun f => f.1 == key := hfilter ▸ List.mem_cons_self
    have hkey : k = key := by simpa using (List.mem_filter.mp hmem).2
    rw [hfilter, hkey]
  · cases h

theorem single?_eq_some_none (h : single? fields key = some none) :
    (fields.filter fun f => f.1 == key) = [] := by
  unfold single? at h
  split at h
  · assumption
  · cases h
  · cases h

theorem required?_eq_some {decode : Written → Option α} {a : α}
    (h : required? fields key decode = some a) :
    ∃ w, single? fields key = some (some w) ∧ decode w = some a := by
  unfold required? at h
  split at h
  · rename_i w hw
    exact ⟨w, hw, h⟩
  · cases h

theorem defaulted?_eq_some {decode : Written → Option α} {default a : α}
    (h : defaulted? fields key default decode = some a) :
    (∃ w, single? fields key = some (some w) ∧ decode w = some a)
      ∨ single? fields key = some none ∧ a = default := by
  unfold defaulted? at h
  split at h
  · rename_i w hw
    exact Or.inl ⟨w, hw, h⟩
  · rename_i hnone
    exact Or.inr ⟨hnone, (Option.some.inj h).symm⟩
  · cases h

theorem optional?_eq_some {decode : Written → Option α} {a : Option α}
    (h : optional? fields key decode = some a) :
    (∃ w b, single? fields key = some (some w) ∧ w ≠ .null ∧ decode w = some b ∧ a = some b)
      ∨ a = none ∧ (single? fields key = some (some .null) ∨ single? fields key = some none) := by
  unfold optional? at h
  split at h
  · rename_i hnull
    exact Or.inr ⟨(Option.some.inj h).symm, Or.inl hnull⟩
  · rename_i w hne hw
    obtain ⟨b, hb, rfl⟩ := Option.map_eq_some_iff.mp h
    exact Or.inl ⟨w, b, hw, hne, hb, rfl⟩
  · rename_i hnone
    exact Or.inr ⟨(Option.some.inj h).symm, Or.inr hnone⟩
  · cases h

end Known

/-! ## Setting members aside -/

section Others

variable {fields : Fields} {known : List String} {key : String}

theorem single?_others (h : key ∉ known) :
    single? (others fields known) key = single? fields key := by
  have hfilter : ((others fields known).filter fun f => f.1 == key)
      = fields.filter fun f => f.1 == key := by
    rw [others, List.filter_filter]
    refine List.filter_congr fun f _ => ?_
    by_cases hf : f.1 = key
    · simp [hf, h]
    · simp [hf]
  unfold single?
  rw [hfilter]

theorem others_comm (fields : Fields) (known known' : List String) :
    others (others fields known) known' = others (others fields known') known := by
  unfold others
  rw [List.filter_filter, List.filter_filter]
  exact List.filter_congr fun f _ => Bool.and_comm ..

end Others

/-! ## Records and plain values -/

/-- What a record is given under a known key: nothing, or one value. -/
inductive Gives (fields : Fields) (key : String) : Option Json → Prop
  | absent : single? fields key = some none → Gives fields key none
  | present {w : Written} {v : Json} :
      single? fields key = some (some w) → w.value? = some v → Gives fields key (some v)

section Plain

variable {fields : Fields} {values : List (String × Json)}
  (written : Written.memberValues? fields = some values)

include written

/-- What a record is given under a known key stands there in the plain value. -/
theorem get?_of_gives {key : String} {value : Option Json} (h : Gives fields key value) :
    Entries.get? (Entries.collect values) key = value := by
  have hkey := Written.memberValues?_filter written fun k => k == key
  rw [Entries.get?_collect]
  cases h with
  | absent h =>
    rw [single?_eq_some_none h] at hkey
    rw [← Option.some.inj hkey]
    rfl
  | present h hv =>
    rw [single?_eq_some_some h] at hkey
    obtain ⟨v, vs, hv', hvs, hvalues⟩ := Written.memberValues?_cons_eq_some hkey
    obtain rfl := Option.some.inj hvs
    rw [hvalues, ← hv, hv']
    rfl

/-- What a record keeps besides are the values under the other keys. -/
theorem get?_rest? {known : List String} {extra : Entries Json}
    (h : rest? fields known = some extra) (key : String) :
    Entries.get? extra key
      = if key ∈ known then none else Entries.get? (Entries.collect values) key := by
  have hrest := Written.memberValues?_filter written fun k => !known.contains k
  obtain ⟨vs, hvs, rfl⟩ := Option.map_eq_some_iff.mp h
  rw [others, hrest] at hvs
  obtain rfl := Option.some.inj hvs
  rw [Entries.get?_collect, Entries.get?_collect, List.filter_filter]
  by_cases hkey : key ∈ known
  · have hnone : (values.filter fun e => e.1 == key && !known.contains e.1) = [] := by
      refine List.filter_eq_nil_iff.mpr fun e _ => ?_
      by_cases he : e.1 = key
      · simp [he, hkey]
      · simp [he]
    rw [hnone, if_pos hkey]
    rfl
  · have hsame : (values.filter fun e => e.1 == key && !known.contains e.1)
        = values.filter fun e => e.1 == key := by
      refine List.filter_congr fun e _ => ?_
      by_cases he : e.1 = key
      · simp [he, hkey]
      · simp [he]
    rw [hsame, if_neg hkey]

end Plain

/-- A record that is given something readable under each key that it knows and keeps all others has a
plain value. -/
theorem exists_memberValues?_of_gives {fields : Fields} {known : List String}
    {extra : Entries Json} (given : ∀ key ∈ known, ∃ value, Gives fields key value)
    (h : rest? fields known = some extra) :
    ∃ values, Written.memberValues? fields = some values := by
  refine Written.exists_memberValues? fun f hf => ?_
  by_cases hknown : f.1 ∈ known
  · obtain ⟨value, hvalue⟩ := given f.1 hknown
    have hmem : f ∈ fields.filter fun g => g.1 == f.1 :=
      List.mem_filter.mpr ⟨hf, beq_self_eq_true f.1⟩
    cases hvalue with
    | absent h =>
      rw [single?_eq_some_none h] at hmem
      cases hmem
    | present h hv =>
      rw [single?_eq_some_some h] at hmem
      have hvalue : f.2 = _ := congrArg Prod.snd (List.mem_singleton.mp hmem)
      rw [hvalue, hv]
      rfl
  · obtain ⟨values, hvalues, -⟩ := Option.map_eq_some_iff.mp h
    refine Written.isSome_of_memberValues? hvalues f (List.mem_filter.mpr ⟨hf, ?_⟩)
    simp [hknown]

theorem nodup_keys_rest? {fields : Fields} {known : List String} {extra : Entries Json}
    (h : rest? fields known = some extra) : (Entries.keys extra).Nodup := by
  obtain ⟨values, -, rfl⟩ := Option.map_eq_some_iff.mp h
  exact Entries.nodup_keys_collect values

end Decode

end OpenApi
