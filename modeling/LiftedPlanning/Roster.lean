import LiftedPlanning.Trie

/-!
# Rosters

A roster lists things in order of entry, and no two things with the same key. The place of a thing
is found by its key, through a trie that agrees with the list.
-/

namespace LiftedPlanning

variable {α : Type}

/-- Things in order of entry, with their places by key. -/
structure Roster (key : α → Trie.Key) where
  entries : Array α
  places : Trie Nat
  find?_places : ∀ x xs,
    places.find? x xs = entries.toList.findIdx? fun a ↦ decide (key a = ⟨x, xs⟩)

namespace Roster

variable {key : α → Trie.Key}

def empty : Roster key where
  entries := #[]
  places := .empty
  find?_places _ _ := rfl

/-- The number of entries; it is also the place of the next one. -/
def size (r : Roster key) : Nat :=
  r.entries.size

def toList (r : Roster key) : List α :=
  r.entries.toList

def get? (r : Roster key) (i : Nat) : Option α :=
  r.entries[i]?

def place? (r : Roster key) (k : Trie.Key) : Option Nat :=
  r.places.find? k.first k.rest

theorem place?_eq_findIdx? (r : Roster key) (k : Trie.Key) :
    r.place? k = r.toList.findIdx? fun a ↦ decide (key a = k) :=
  r.find?_places k.first k.rest

/-- Enters a thing at the end, unless there is one with its key. -/
def insert (r : Roster key) (a : α) : Roster key :=
  if h : (r.place? (key a)).isSome then
    r
  else
    { entries := r.entries.push a
      places := r.places.insert (key a).first (key a).rest r.entries.size
      find?_places := by
        intro x xs
        rw [Trie.find?_insert, Array.toList_push, List.findIdx?_append, ← r.find?_places]
        by_cases hk : key a = ⟨x, xs⟩
        · have absent : r.places.find? x xs = none := by simpa [place?, hk] using h
          simp [hk, absent]
        · have other : ¬(x = (key a).first ∧ xs = (key a).rest) := by
            rintro ⟨rfl, rfl⟩
            exact hk rfl
          simp [hk, other] }

theorem toList_insert (r : Roster key) (a : α) :
    (r.insert a).toList =
      if (r.place? (key a)).isSome then r.toList else r.toList ++ [a] := by
  rw [insert]
  split <;> simp [toList]

end Roster

end LiftedPlanning
