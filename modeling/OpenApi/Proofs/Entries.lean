/-
# OpenApi.Proofs.Entries -- laws of keyed entries

What the writing operations do to the entries there are, to the keys, and to what a look-up
finds. Entries that were written key by key have distinct keys, and then a look-up finds
exactly the entries themselves.
-/
import Mathlib.Data.List.Induction
import Mathlib.Data.List.Nodup
import OpenApi.Entries

namespace OpenApi.Entries

variable {α β : Type}

/-! ## Members after writing -/

theorem mem_insert {entries : Entries α} {key : String} {value : α} {e : String × α}
    (h : e ∈ insert entries key value) : e = (key, value) ∨ e ∈ entries := by
  induction entries with
  | nil => exact Or.inl (List.mem_singleton.mp h)
  | cons first rest ih =>
    obtain ⟨k, v⟩ := first
    by_cases hk : k = key
    · simp only [insert, hk, if_true, List.mem_cons] at h
      rcases h with rfl | h
      · exact Or.inl rfl
      · exact Or.inr (List.mem_cons_of_mem _ h)
    · simp only [insert, hk, if_false, List.mem_cons] at h
      rcases h with rfl | h
      · exact Or.inr List.mem_cons_self
      · exact (ih h).imp_right (List.mem_cons_of_mem _)

theorem mem_extend {entries later : Entries α} {e : String × α}
    (h : e ∈ extend entries later) : e ∈ later ∨ e ∈ entries := by
  induction later generalizing entries with
  | nil => exact Or.inr h
  | cons first rest ih =>
    rcases ih h with h | h
    · exact Or.inl (List.mem_cons_of_mem _ h)
    · rcases mem_insert h with rfl | h
      · exact Or.inl List.mem_cons_self
      · exact Or.inr h

theorem mem_insert_of_ne {entries : Entries α} {key : String} {e : String × α} (h : e ∈ entries)
    (hne : e.1 ≠ key) (value : α) : e ∈ insert entries key value := by
  induction entries with
  | nil => cases h
  | cons first rest ih =>
    obtain ⟨k, v⟩ := first
    by_cases hk : k = key
    · simp only [insert, hk, if_true, List.mem_cons]
      rcases List.mem_cons.mp h with rfl | h
      · exact absurd hk hne
      · exact Or.inr h
    · simp only [insert, hk, if_false, List.mem_cons]
      exact (List.mem_cons.mp h).imp_right ih

/-- Entries whose keys are not written over stay. -/
theorem mem_extend_of_not_mem {entries later : Entries α} {e : String × α} (h : e ∈ entries)
    (hkey : e.1 ∉ keys later) : e ∈ extend entries later := by
  induction later generalizing entries with
  | nil => exact h
  | cons first rest ih =>
    have hne : e.1 ≠ first.1 := fun heq => hkey (heq ▸ List.mem_cons_self)
    exact ih (mem_insert_of_ne h hne first.2) fun hrest => hkey (List.mem_cons_of_mem _ hrest)

theorem mem_insertSome {entries : Entries α} {key : String} {value : Option α} {e : String × α}
    (h : e ∈ insertSome entries key value) : value.map (key, ·) = some e ∨ e ∈ entries := by
  cases value with
  | none => exact Or.inr h
  | some v => exact (mem_insert h).imp_left fun h => by rw [h]; rfl

theorem mem_mapValues {f : α → β} {entries : Entries α} {e : String × β} :
    e ∈ mapValues f entries ↔ ∃ v, (e.1, v) ∈ entries ∧ f v = e.2 := by
  constructor
  · intro h
    obtain ⟨⟨k, v⟩, hmem, rfl⟩ := List.mem_map.mp h
    exact ⟨v, hmem, rfl⟩
  · rintro ⟨v, hmem, hv⟩
    exact List.mem_map.mpr ⟨(e.1, v), hmem, by rw [hv]⟩

/-! ## Look-ups -/

theorem mem_of_get? {entries : Entries α} {key : String} {value : α}
    (h : get? entries key = some value) : (key, value) ∈ entries := by
  induction entries with
  | nil => cases h
  | cons first rest ih =>
    obtain ⟨k, v⟩ := first
    by_cases hk : k = key
    · simp only [get?, hk, if_true, Option.some.injEq] at h
      rw [hk, h]
      exact List.mem_cons_self
    · simp only [get?, hk, if_false] at h
      exact List.mem_cons_of_mem _ (ih h)

theorem get?_append (entries later : Entries α) (key : String) :
    get? (entries ++ later) key = (get? entries key).or (get? later key) := by
  induction entries with
  | nil => rfl
  | cons first rest ih =>
    obtain ⟨k, v⟩ := first
    by_cases hk : k = key
    · simp [get?, hk]
    · simpa [get?, hk] using ih

theorem get?_mapValues (f : α → β) (entries : Entries α) (key : String) :
    get? (mapValues f entries) key = (get? entries key).map f := by
  induction entries with
  | nil => rfl
  | cons first rest ih =>
    obtain ⟨k, v⟩ := first
    by_cases hk : k = key
    · simp [mapValues, get?, hk]
    · simpa [mapValues, get?, hk] using ih

theorem get?_map (f : String → α → β) (entries : Entries α) (key : String) :
    get? (entries.map fun e => (e.1, f e.1 e.2)) key = (get? entries key).map (f key) := by
  induction entries with
  | nil => rfl
  | cons first rest ih =>
    obtain ⟨k, v⟩ := first
    by_cases hk : k = key
    · simp [get?, hk]
    · simpa [get?, hk] using ih

theorem contains_iff_mem_keys {entries : Entries α} {key : String} :
    contains entries key = true ↔ key ∈ keys entries := by
  induction entries with
  | nil => simp [contains, get?, keys]
  | cons first rest ih =>
    obtain ⟨k, v⟩ := first
    by_cases hk : k = key
    · simp [contains, get?, keys, hk]
    · have hk' : key ≠ k := fun h => hk h.symm
      simpa [contains, get?, keys, hk, hk'] using ih

theorem get?_eq_none_iff {entries : Entries α} {key : String} :
    get? entries key = none ↔ key ∉ keys entries := by
  rw [← contains_iff_mem_keys, contains]
  cases get? entries key <;> simp

theorem get?_isSome_of_mem {entries : Entries α} {e : String × α} (h : e ∈ entries) :
    (get? entries e.1).isSome = true :=
  contains_iff_mem_keys.mpr (List.mem_map_of_mem h)

theorem contains_of_mem {entries : Entries α} {e : String × α} (h : e ∈ entries) :
    contains entries e.1 = true := get?_isSome_of_mem h

theorem get?_insert (entries : Entries α) (key other : String) (value : α) :
    get? (insert entries key value) other
      = if other = key then some value else get? entries other := by
  by_cases h : other = key
  · rw [if_pos h, h, get?_insert_self]
  · rw [if_neg h, get?_insert_of_ne entries value h]

theorem get?_insertSome_of_ne (entries : Entries α) {key other : String} (value : Option α)
    (h : other ≠ key) : get? (insertSome entries key value) other = get? entries other := by
  cases value with
  | none => rfl
  | some v => exact get?_insert_of_ne entries v h

theorem get?_insertSome (entries : Entries α) (key other : String) (value : Option α) :
    get? (insertSome entries key value) other
      = if other = key then value.or (get? entries other) else get? entries other := by
  cases value with
  | none => simp [insertSome]
  | some v => simp [insertSome, get?_insert]

theorem contains_insert (entries : Entries α) (key other : String) (value : α) :
    contains (insert entries key value) other = true
      ↔ other = key ∨ contains entries other = true := by
  rw [contains, get?_insert]
  by_cases h : other = key
  · simp [h]
  · simp [h, contains]

theorem contains_extend {entries later : Entries α} {key : String} :
    contains (extend entries later) key = true
      ↔ contains later key = true ∨ contains entries key = true := by
  induction later generalizing entries with
  | nil => simp [extend, contains, get?]
  | cons first rest ih =>
    obtain ⟨k, v⟩ := first
    have hfold : extend entries ((k, v) :: rest) = extend (insert entries k v) rest := rfl
    rw [hfold, ih, contains_insert]
    by_cases hk : k = key
    · simp [contains, get?, hk]
    · have hk' : key ≠ k := fun h => hk h.symm
      simp [contains, get?, hk, hk']

theorem get?_filter {entries : Entries α} {p : String × α → Bool} {key : String} {value : α}
    (h : get? entries key = some value) (hp : p (key, value) = true) :
    get? (entries.filter p) key = some value := by
  induction entries with
  | nil => cases h
  | cons first rest ih =>
    obtain ⟨k, v⟩ := first
    by_cases hk : k = key
    · simp only [get?, hk, if_true, Option.some.injEq] at h
      rw [hk, h, List.filter_cons, if_pos hp]
      simp [get?]
    · simp only [get?, hk, if_false] at h
      rw [List.filter_cons]
      split
      · simpa [get?, hk] using ih h
      · exact ih h

/-! ## Distinct keys -/

theorem get?_of_mem {entries : Entries α} (distinct : (keys entries).Nodup) {e : String × α}
    (h : e ∈ entries) : get? entries e.1 = some e.2 := by
  induction entries with
  | nil => cases h
  | cons first rest ih =>
    obtain ⟨k, v⟩ := first
    have hcons : k ∉ keys rest ∧ (keys rest).Nodup := List.nodup_cons.mp distinct
    rcases List.mem_cons.mp h with rfl | hrest
    · simp [get?]
    · have hne : k ≠ e.1 := by
        rintro rfl
        exact hcons.1 (List.mem_map_of_mem hrest)
      simpa [get?, hne] using ih hcons.2 hrest

theorem keys_insert (entries : Entries α) (key : String) (value : α) :
    keys (insert entries key value)
      = if key ∈ keys entries then keys entries else keys entries ++ [key] := by
  induction entries with
  | nil => rfl
  | cons first rest ih =>
    obtain ⟨k, v⟩ := first
    have hcons : keys ((k, v) :: rest) = k :: keys rest := rfl
    by_cases hk : k = key
    · have hins : insert ((k, v) :: rest) key value = (k, value) :: rest := by
        simp [insert, hk]
      rw [hins, hcons, hk, if_pos List.mem_cons_self]
      rfl
    · have hins : insert ((k, v) :: rest) key value = (k, v) :: insert rest key value := by
        simp [insert, hk]
      have hmem : key ∈ keys ((k, v) :: rest) ↔ key ∈ keys rest := by
        rw [hcons, List.mem_cons]
        exact or_iff_right fun h => hk h.symm
      have htail : keys ((k, v) :: insert rest key value) = k :: keys (insert rest key value) :=
        rfl
      rw [hins, htail, ih]
      by_cases hr : key ∈ keys rest
      · rw [if_pos hr, if_pos (hmem.mpr hr), hcons]
      · rw [if_neg hr, if_neg (mt hmem.mp hr), hcons, List.cons_append]

theorem nodup_keys_insert {entries : Entries α} (distinct : (keys entries).Nodup) (key : String)
    (value : α) : (keys (insert entries key value)).Nodup := by
  rw [keys_insert]
  split
  · exact distinct
  · rename_i h
    exact List.nodup_append.mpr ⟨distinct, List.nodup_singleton _, by
      intro a ha b hb hab
      rw [List.mem_singleton] at hb
      exact h (hb ▸ hab ▸ ha)⟩

theorem nodup_keys_extend {entries : Entries α} (distinct : (keys entries).Nodup)
    (later : Entries α) : (keys (extend entries later)).Nodup := by
  induction later generalizing entries with
  | nil => exact distinct
  | cons first rest ih => exact ih (nodup_keys_insert distinct first.1 first.2)

theorem nodup_keys_insertSome {entries : Entries α} (distinct : (keys entries).Nodup)
    (key : String) (value : Option α) : (keys (insertSome entries key value)).Nodup := by
  cases value with
  | none => exact distinct
  | some v => exact nodup_keys_insert distinct key v

theorem nodup_keys_filter {entries : Entries α} (distinct : (keys entries).Nodup)
    (p : String × α → Bool) : (keys (entries.filter p)).Nodup :=
  distinct.sublist ((List.filter_sublist).map _)

theorem keys_mapValues (f : α → β) (entries : Entries α) :
    keys (mapValues f entries) = keys entries := by
  simp [keys, mapValues, Function.comp_def]

/-- Where the keys of `later` are distinct, each of them has its value afterwards; any other
key has the value it had. -/
theorem get?_extend (entries : Entries α) {later : Entries α} (distinct : (keys later).Nodup)
    (key : String) : get? (extend entries later) key = (get? later key).or (get? entries key) := by
  induction later generalizing entries with
  | nil => rfl
  | cons first rest ih =>
    obtain ⟨k, v⟩ := first
    have hcons : k ∉ keys rest ∧ (keys rest).Nodup := List.nodup_cons.mp distinct
    have hfold : extend entries ((k, v) :: rest) = extend (insert entries k v) rest := rfl
    rw [hfold, ih _ hcons.2, get?_insert]
    by_cases hk : key = k
    · have hnone : get? rest key = none := get?_eq_none_iff.mpr (hk ▸ hcons.1)
      rw [hnone]
      simp [get?, hk]
    · have hk' : k ≠ key := fun h => hk h.symm
      simp [get?, hk, hk']

theorem get?_extend_congr {entries entries' : Entries α} {key : String}
    (h : get? entries key = get? entries' key) (later : Entries α) :
    get? (extend entries later) key = get? (extend entries' later) key := by
  induction later generalizing entries entries' with
  | nil => exact h
  | cons first rest ih =>
    apply ih
    rw [get?_insert, get?_insert, h]

/-- What is written one list of entries over the other stands under a key as the last list that has
the key gives it. -/
theorem get?_foldl_extend {γ : Type} (f : γ → Entries α) (distinct : ∀ x, (keys (f x)).Nodup)
    (xs : List γ) (entries : Entries α) (key : String) :
    get? (xs.foldl (fun written x => extend written (f x)) entries) key
      = ((xs.filterMap fun x => get? (f x) key).getLast?).or (get? entries key) := by
  induction xs using List.reverseRecOn with
  | nil => rfl
  | append_singleton xs x ih =>
    rw [List.foldl_concat, get?_extend _ (distinct x), ih, List.filterMap_append]
    cases hx : get? (f x) key with
    | none => simp [hx]
    | some value => simp [hx]

theorem get?_filter_of_nodup {entries : Entries α} (distinct : (keys entries).Nodup)
    (p : String × α → Bool) (key : String) :
    get? (entries.filter p) key = (get? entries key).filter fun value => p (key, value) := by
  cases hget : get? entries key with
  | none =>
    refine get?_eq_none_iff.mpr fun hmem => get?_eq_none_iff.mp hget ?_
    exact (List.filter_sublist.map _).subset hmem
  | some value =>
    cases hp : p (key, value) with
    | true => rw [get?_filter hget hp, Option.filter_some, hp, if_pos rfl]
    | false =>
      rw [Option.filter_some, hp, if_neg Bool.false_ne_true]
      refine get?_eq_none_iff.mpr fun hmem => ?_
      obtain ⟨e, he, rfl⟩ := List.mem_map.mp hmem
      obtain ⟨hentry, hpe⟩ := List.mem_filter.mp he
      rw [get?_of_mem distinct hentry] at hget
      obtain rfl := Option.some.inj hget
      exact absurd (hp.symm.trans hpe) Bool.false_ne_true

/-! ## Collected pairs -/

theorem collect_concat (pairs : List (String × α)) (e : String × α) :
    collect (pairs ++ [e]) = insert (collect pairs) e.1 e.2 :=
  List.foldl_concat ..

theorem nodup_keys_collect (pairs : List (String × α)) : (keys (collect pairs)).Nodup := by
  have hempty : (keys ([] : Entries α)).Nodup := List.nodup_nil
  exact nodup_keys_extend hempty pairs

theorem mem_of_mem_collect {pairs : List (String × α)} {e : String × α} (h : e ∈ collect pairs) :
    e ∈ pairs := (mem_extend h).resolve_right List.not_mem_nil

/-- Collected pairs have the last value under each key. -/
theorem get?_collect (pairs : List (String × α)) (key : String) :
    get? (collect pairs) key
      = ((pairs.filter fun e => e.1 == key).getLast?).map fun e => e.2 := by
  induction pairs using List.reverseRecOn with
  | nil => rfl
  | append_singleton rest e ih =>
    rw [collect_concat, get?_insert, List.filter_append, ih]
    by_cases h : key = e.1
    · simp [h]
    · have h' : ¬ e.1 = key := fun heq => h heq.symm
      simp [h, h']

/-! ## Writing in sequence -/

/-- A choice of keys does not see what is written under other keys. -/
theorem filter_insert_of_not (entries : Entries α) {p : String → Bool} {key : String}
    (h : p key = false) (value : α) :
    (insert entries key value).filter (fun e => p e.1) = entries.filter fun e => p e.1 := by
  induction entries with
  | nil => simp [insert, h]
  | cons first rest ih =>
    obtain ⟨k, v⟩ := first
    by_cases hk : k = key
    · simp [insert, hk, h]
    · simp [insert, hk, List.filter_cons, ih]

theorem insert_of_not_mem {entries : Entries α} {key : String} (h : key ∉ keys entries) (value : α) :
    insert entries key value = entries ++ [(key, value)] := by
  induction entries with
  | nil => rfl
  | cons first rest ih =>
    obtain ⟨k, v⟩ := first
    have hne : k ≠ key := fun hk => h (hk ▸ List.mem_cons_self)
    rw [insert, if_neg hne, ih fun hrest => h (List.mem_cons_of_mem _ hrest), List.cons_append]

theorem insert_insert_self (entries : Entries α) (key : String) (value later : α) :
    insert (insert entries key value) key later = insert entries key later := by
  induction entries with
  | nil => simp [insert]
  | cons first rest ih =>
    obtain ⟨k, v⟩ := first
    by_cases hk : k = key
    · simp [insert, hk]
    · simp [insert, hk, ih]

/-- Writing under a key that has its place already can be put off. -/
theorem insert_comm_of_mem {entries : Entries α} {key other : String} (h : key ∈ keys entries)
    (hne : key ≠ other) (value value' : α) :
    insert (insert entries other value') key value
      = insert (insert entries key value) other value' := by
  induction entries with
  | nil => cases h
  | cons first rest ih =>
    obtain ⟨k, v⟩ := first
    by_cases hk : k = key
    · have hother : ¬ k = other := fun ho => hne (hk.symm.trans ho)
      simp [insert, hk, hne]
    · have hrest : key ∈ keys rest := (List.mem_cons.mp h).resolve_left fun he => hk he.symm
      by_cases hother : k = other
      · simp [insert, hother, Ne.symm hne]
      · simp [insert, hk, hother, ih hrest]

theorem insert_extend_of_mem {entries later : Entries α} {key : String} (h : key ∈ keys entries)
    (hlater : key ∉ keys later) (value : α) :
    insert (extend entries later) key value = extend (insert entries key value) later := by
  induction later generalizing entries with
  | nil => rfl
  | cons first rest ih =>
    have hne : key ≠ first.1 := fun heq => hlater (heq ▸ List.mem_cons_self)
    have hmem : key ∈ keys (insert entries first.1 first.2) := by
      rw [← contains_iff_mem_keys, contains_insert]
      exact Or.inr (contains_iff_mem_keys.mpr h)
    show insert (extend (insert entries first.1 first.2) rest) key value
      = extend (insert (insert entries key value) first.1 first.2) rest
    rw [ih hmem fun hrest => hlater (List.mem_cons_of_mem _ hrest), insert_comm_of_mem h hne]

/-- Writing a key into entries that are written over others is writing it in the end. -/
theorem extend_insert (entries : Entries α) {later : Entries α} (distinct : (keys later).Nodup)
    (key : String) (value : α) :
    extend entries (insert later key value) = insert (extend entries later) key value := by
  induction later generalizing entries with
  | nil => rfl
  | cons first rest ih =>
    obtain ⟨k, v⟩ := first
    have hcons : k ∉ keys rest ∧ (keys rest).Nodup := List.nodup_cons.mp distinct
    by_cases hk : k = key
    · subst hk
      have hmem : k ∈ keys (insert entries k v) := by
        rw [← contains_iff_mem_keys, contains_insert]
        exact Or.inl rfl
      have hwritten : insert ((k, v) :: rest) k value = (k, value) :: rest := by simp [insert]
      rw [hwritten]
      show extend (insert entries k value) rest = insert (extend (insert entries k v) rest) k value
      rw [insert_extend_of_mem hmem hcons.1, insert_insert_self]
    · have hwritten : insert ((k, v) :: rest) key value = (k, v) :: insert rest key value := by
        simp [insert, hk]
      rw [hwritten]
      exact ih (insert entries k v) hcons.2

/-- Writing entries over entries is associative, the order of keys included. -/
theorem extend_assoc (first : Entries α) {second : Entries α} (distinct : (keys second).Nodup)
    (third : Entries α) :
    extend (extend first second) third = extend first (extend second third) := by
  induction third generalizing second with
  | nil => rfl
  | cons e rest ih =>
    have hstep := ih (nodup_keys_insert distinct e.1 e.2)
    rw [extend_insert first distinct] at hstep
    exact hstep

theorem extend_nil_left {entries : Entries α} (distinct : (keys entries).Nodup) :
    extend [] entries = entries := by
  induction entries using List.reverseRecOn with
  | nil => rfl
  | append_singleton rest e ih =>
    rw [keys, List.map_append] at distinct
    obtain ⟨hrest, _, hapart⟩ := List.nodup_append.mp distinct
    have hfresh : e.1 ∉ keys rest := fun hmem => hapart _ hmem _ List.mem_cons_self rfl
    rw [extend, List.foldl_concat]
    show insert (extend [] rest) e.1 e.2 = rest ++ [e]
    rw [ih hrest, insert_of_not_mem hfresh]

/-! ## The order of keys -/

/-- The order in which keys stand when keys are written one after another: those that have a place
keep it, and new ones follow where they first occur. -/
def writtenOrder (before written : List String) : List String :=
  before ++ (written.filter fun key => !before.contains key).eraseDups

theorem writtenOrder_nil (before : List String) : writtenOrder before [] = before := by
  simp [writtenOrder]

theorem writtenOrder_append (before first second : List String) :
    writtenOrder (writtenOrder before first) second = writtenOrder before (first ++ second) := by
  unfold writtenOrder
  rw [List.append_assoc, List.filter_append, List.eraseDups_append]
  congr 2
  rw [List.removeAll, List.filter_filter]
  congr 1
  refine List.filter_congr fun key _ => ?_
  by_cases h : key ∈ before <;> simp [h]

theorem keys_insert_eq_writtenOrder (entries : Entries α) (key : String) (value : α) :
    keys (insert entries key value) = writtenOrder (keys entries) [key] := by
  rw [keys_insert, writtenOrder]
  by_cases h : key ∈ keys entries <;> simp [h, List.eraseDups_cons]

/-! ## Entries within entries -/

/-- Whether there is an entry under a key of the entry under another key. -/
def containsWithin (entries : Entries (Entries α)) (key inner : String) : Bool :=
  ((get? entries key).bind fun within => get? within inner).isSome

/-- Writing back an entry that has got more keys adds these keys there, and nothing elsewhere. -/
theorem containsWithin_insert {entries : Entries (Entries α)} {key : String} {within : Entries α}
    {added : String → Prop}
    (h : ∀ inner, contains within inner = true
      ↔ contains ((get? entries key).getD []) inner = true ∨ added inner) (other inner : String) :
    containsWithin (insert entries key within) other inner = true
      ↔ containsWithin entries other inner = true ∨ other = key ∧ added inner := by
  unfold containsWithin
  rw [get?_insert]
  by_cases hother : other = key
  · subst hother
    have hbefore : contains ((get? entries other).getD []) inner
        = ((get? entries other).bind fun within => get? within inner).isSome := by
      cases get? entries other <;> rfl
    rw [if_pos rfl, Option.bind_some, ← hbefore]
    exact (h inner).trans (or_congr_right (and_iff_right rfl).symm)
  · simp [hother]

end OpenApi.Entries
