/-
# OpenApi.Store -- write-once names

A store keeps values under names. The first value given for a name stays; a later one for
the same name is ignored, and the caller is told.
-/
import OpenApi.Entries

namespace OpenApi

/-- Values under names, in the order in which they were stored. -/
structure Store (α : Type) where
  entries : Entries α := []

namespace Store

variable {α : Type}

/-- The value stored under a name. -/
def get? (store : Store α) (name : String) : Option α := Entries.get? store.entries name

/-- Whether a name is taken. -/
def contains (store : Store α) (name : String) : Bool := Entries.contains store.entries name

/-- The number of names. -/
def size (store : Store α) : Nat := store.entries.length

/-- Whether nothing is stored. -/
def isEmpty (store : Store α) : Bool := store.entries.isEmpty

/-- Stores a value unless the name is taken, and says whether it was stored. -/
def define (store : Store α) (name : String) (value : α) : Bool × Store α :=
  if store.contains name then (false, store)
  else (true, ⟨store.entries ++ [(name, value)]⟩)

/-- A later value for a taken name is ignored. -/
theorem define_of_contains {store : Store α} {name : String} (value : α)
    (h : store.contains name = true) : store.define name value = (false, store) := by
  simp [define, h]

end Store

end OpenApi
