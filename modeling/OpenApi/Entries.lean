/-
# OpenApi.Entries -- string-keyed entries in order of first insertion

Entries are a list of key and value pairs. Writing a key that is present replaces its
value and keeps its place; a new key goes to the end. Every object of a document is
built by these operations, so the order of its keys is the order in which they were
first written.
-/

namespace OpenApi

/-- Keys with their values, in order. -/
abbrev Entries (α : Type) := List (String × α)

namespace Entries

variable {α β : Type}

/-- The value of the first entry with the given key. -/
def get? : Entries α → String → Option α
  | [], _ => none
  | (k, v) :: rest, key => if k = key then some v else get? rest key

/-- Whether some entry has the given key. -/
def contains (entries : Entries α) (key : String) : Bool := (get? entries key).isSome

/-- The keys in order. -/
def keys (entries : Entries α) : List String := entries.map (·.1)

/-- The values in order. -/
def values (entries : Entries α) : List α := entries.map (·.2)

/-- Writes a key: in place if it is present, else at the end. -/
def insert : Entries α → String → α → Entries α
  | [], key, value => [(key, value)]
  | (k, v) :: rest, key, value =>
    if k = key then (k, value) :: rest else (k, v) :: insert rest key value

/-- Writes every entry of `later` over `entries`, in order. -/
def extend (entries later : Entries α) : Entries α :=
  later.foldl (fun written entry => insert written entry.1 entry.2) entries

/-- Entries from pairs in which a key may repeat: it keeps its first place and takes its
last value. -/
def collect (pairs : List (String × α)) : Entries α := extend [] pairs

/-- Writes a key if there is a value for it. -/
def insertSome (entries : Entries α) (key : String) : Option α → Entries α
  | some value => insert entries key value
  | none => entries

/-- Applies a function to every value. -/
def mapValues (f : α → β) (entries : Entries α) : Entries β := entries.map fun e => (e.1, f e.2)

/-- The entries up to, without, the given key. -/
private def before (entries : Entries α) (key : String) : Entries α :=
  entries.takeWhile fun e => e.1 != key

/-- The entries after the given key. -/
private def after (entries : Entries α) (key : String) : Entries α :=
  (entries.dropWhile fun e => e.1 != key).drop 1

/-- Takes a key out and puts the last entry into the gap, so that every other entry keeps
its place. -/
def swapRemove (entries : Entries α) (key : String) : Entries α :=
  if contains entries key then
    match (after entries key).getLast? with
    | some last => before entries key ++ last :: (after entries key).dropLast
    | none => before entries key
  else entries

theorem mem_of_mem_swapRemove {entries : Entries α} {key : String} {e : String × α}
    (h : e ∈ swapRemove entries key) : e ∈ entries := by
  have hbefore {e : String × α} (he : e ∈ before entries key) : e ∈ entries :=
    (List.takeWhile_sublist _).subset he
  have hafter {e : String × α} (he : e ∈ after entries key) : e ∈ entries :=
    (List.dropWhile_sublist _).subset (List.mem_of_mem_drop he)
  unfold swapRemove at h
  split at h
  · split at h
    · rename_i last hlast
      rcases List.mem_append.mp h with h | h
      · exact hbefore h
      · rcases List.mem_cons.mp h with rfl | h
        · exact hafter (List.mem_of_getLast? hlast)
        · exact hafter (List.dropLast_subset _ h)
    · exact hbefore h
  · exact h

/-! ## What a look-up sees -/

theorem get?_insert_self (entries : Entries α) (key : String) (value : α) :
    get? (insert entries key value) key = some value := by
  induction entries with
  | nil => simp [insert, get?]
  | cons e rest ih =>
    by_cases h : e.1 = key
    · simp [insert, get?, h]
    · simp [insert, get?, h, ih]

theorem get?_insert_of_ne (entries : Entries α) {key other : String} (value : α)
    (h : other ≠ key) : get? (insert entries key value) other = get? entries other := by
  induction entries with
  | nil => simp [insert, get?, Ne.symm h]
  | cons e rest ih =>
    obtain ⟨k, v⟩ := e
    by_cases hk : k = key
    · simp [insert, get?, hk, Ne.symm h]
    · simp [insert, get?, hk, ih]

end Entries

end OpenApi
