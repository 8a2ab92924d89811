/-
# OpenApi.Proofs.Composition -- what a fragment says through its parts and references

A fragment says something by keys of its own, by the parts of its `allOf`, or by referring to a named
schema. `Store.Composes` follows the last two as far as they go, whatever it is that a fragment may
say by itself. A reference says what is stored, a reference with a delta what either of them says, and
document keys that neither compose nor refer change nothing.
-/
import OpenApi.Proofs.ReferenceClosure

namespace OpenApi

/-- The keys by which a fragment says what others say. -/
def Fragment.composingKeys : List String := ["allOf", "$ref"]

/-- A fragment says something itself, in one of its parts, or in the named schema that it refers
to. -/
inductive Store.Composes (store : Store Fragment) (own : Fragment → Prop) : Fragment → Prop
  | itself {fragment : Fragment} : own fragment → Composes store own fragment
  | part {fragment part : Fragment} {parts : List Json} :
      ("allOf", .array parts) ∈ fragment → .object part ∈ parts → Composes store own part →
      Composes store own fragment
  | target {fragment stored : Fragment} {name : String} :
      ("$ref", .string (Reference.schemaPath name)) ∈ fragment → store.get? name = some stored →
      Composes store own stored → Composes store own fragment

/-- Under a key that is not written over, an entry stays unless it is null. -/
theorem Fragment.mem_overlay_iff {body written : Fragment} {e : String × Json}
    (hkey : e.1 ∉ Entries.keys written) (hvalue : e.2.isNull = false) :
    e ∈ overlay body written ↔ e ∈ body := by
  rw [overlay, nonNull, List.mem_filter]
  constructor
  · rintro ⟨hmem, _⟩
    rcases Entries.mem_extend hmem with hmem | hmem
    · exact absurd (List.mem_map_of_mem hmem) hkey
    · exact hmem
  · exact fun hmem => ⟨Entries.mem_extend_of_not_mem hmem hkey, by simp [hvalue]⟩

namespace Store

variable {store : Store Fragment} {own : Fragment → Prop} {fragment fragment' part : Fragment}
  {name : String}

/-- Only the composing keys count, and null under one of them composes nothing. -/
theorem Composes.of_entries (h : store.Composes own fragment) (hown : own fragment → own fragment')
    (hsub : ∀ e ∈ fragment, e.1 ∈ Fragment.composingKeys → e.2.isNull = false → e ∈ fragment') :
    store.Composes own fragment' := by
  cases h with
  | itself hitself => exact .itself (hown hitself)
  | part hmem hpart hsaid =>
    exact .part (hsub _ hmem (by decide : "allOf" ∈ Fragment.composingKeys) rfl) hpart hsaid
  | target hmem hget hsaid =>
    exact .target (hsub _ hmem (by decide : "$ref" ∈ Fragment.composingKeys) rfl) hget hsaid

theorem composes_toSchema_iff (hown : ¬ own (Reference.toSchema name)) :
    store.Composes own (Reference.toSchema name)
      ↔ ∃ stored, store.get? name = some stored ∧ store.Composes own stored := by
  constructor
  · intro h
    cases h with
    | itself hitself => exact absurd hitself hown
    | part hmem _ _ => simp [Reference.toSchema, Reference.toPath] at hmem
    | @target _ stored other hmem hget hsaid =>
      have hpath : Reference.schemaPath other = Reference.schemaPath name := by
        simpa [Reference.toSchema, Reference.toPath] using hmem
      rw [Reference.path_inj hpath] at hget
      exact ⟨stored, hget, hsaid⟩
  · rintro ⟨stored, hget, hsaid⟩
    exact .target List.mem_cons_self hget hsaid

theorem composes_referenceAnd_iff (hown : ¬ own (Fragment.referenceAnd name part)) :
    store.Composes own (Fragment.referenceAnd name part)
      ↔ store.Composes own (Reference.toSchema name) ∨ store.Composes own part := by
  constructor
  · intro h
    cases h with
    | itself hitself => exact absurd hitself hown
    | target hmem _ _ => simp [Fragment.referenceAnd] at hmem
    | @part _ member parts hmem hmember hsaid =>
      have hparts : parts = [.object (Reference.toSchema name), .object part] := by
        simpa [Fragment.referenceAnd] using hmem
      subst hparts
      simp only [List.mem_cons, Json.object.injEq, List.not_mem_nil, or_false] at hmember
      rcases hmember with rfl | rfl
      · exact Or.inl hsaid
      · exact Or.inr hsaid
  · rintro (hsaid | hsaid)
    · exact .part List.mem_cons_self List.mem_cons_self hsaid
    · exact .part List.mem_cons_self (List.mem_cons_of_mem _ List.mem_cons_self) hsaid

/-- A fragment that does not compose anything says what it says itself. -/
theorem composes_iff_of_plain (h : ∀ e ∈ fragment, e.1 ∉ Fragment.composingKeys) :
    store.Composes own fragment ↔ own fragment := by
  constructor
  · intro hsaid
    cases hsaid with
    | itself hitself => exact hitself
    | part hmem _ _ => exact absurd (by decide : "allOf" ∈ Fragment.composingKeys) (h _ hmem)
    | target hmem _ _ => exact absurd (by decide : "$ref" ∈ Fragment.composingKeys) (h _ hmem)
  · exact .itself

/-- Document keys that do not compose anything change nothing, if what is said is not said by them. -/
theorem composes_overlay_iff {body written : Fragment}
    (hwritten : ∀ key ∈ Fragment.composingKeys, key ∉ Entries.keys written)
    (hown : own (Fragment.overlay body written) ↔ own body) :
    store.Composes own (Fragment.overlay body written) ↔ store.Composes own body := by
  constructor
  · intro h
    refine h.of_entries hown.mp fun e he hkey hvalue => ?_
    exact (Fragment.mem_overlay_iff (hwritten e.1 hkey) hvalue).mp he
  · intro h
    refine h.of_entries hown.mpr fun e he hkey hvalue => ?_
    exact (Fragment.mem_overlay_iff (hwritten e.1 hkey) hvalue).mpr he

end Store

end OpenApi
