import LiftedPlanning.Explanation

/-!
# Catalogs

A catalog lists named entries in the order in which they were entered. Names are unique, entries
are never removed, and so the place of an entry identifies it for good. What is stored with a name
is a parameter: types come with their supertypes, constants with their type, and so on.
-/

namespace LiftedPlanning

/-- Failures of the look-up and of the entry of names; `kind` says what is being named. -/
inductive NameError
  | taken (kind name : String)
  | missing (kind name : String)
  deriving DecidableEq, Repr

instance : Explained NameError where
  chain
    | .taken kind name => [s!"{kind} {name} is already defined"]
    | .missing kind name => [s!"no such {kind}: {name}"]

/-- Named entries in order of entry. -/
structure Catalog (α : Type) where
  /-- What the names stand for, as told in failures. -/
  kind : String
  entries : List (String × α) := []

namespace Catalog

variable {α : Type}

/-- The number of entries; it is also the place of the next one. -/
def size (c : Catalog α) : Nat :=
  c.entries.length

def isEmpty (c : Catalog α) : Bool :=
  c.entries.isEmpty

def names (c : Catalog α) : List String :=
  c.entries.map (·.1)

def values (c : Catalog α) : List α :=
  c.entries.map (·.2)

def name? (c : Catalog α) (i : Nat) : Option String :=
  (c.entries[i]?).map (·.1)

def value? (c : Catalog α) (i : Nat) : Option α :=
  (c.entries[i]?).map (·.2)

/-- The place of a name, if it was entered. -/
def place? (c : Catalog α) (name : String) : Option Nat :=
  c.names.idxOf? name

/-- The place of a name that has to be there. -/
def find (c : Catalog α) (name : String) : Except NameError Nat :=
  match c.place? name with
  | some i => .ok i
  | none => .error (.missing c.kind name)

/-- Enters a new name at the end, that is at place `c.size`. -/
def insert (c : Catalog α) (name : String) (a : α) : Except NameError (Catalog α) :=
  if name ∈ c.names then
    .error (.taken c.kind name)
  else
    .ok { c with entries := c.entries ++ [(name, a)] }

/-- Changes what is stored at a place; the names stay. -/
def update (c : Catalog α) (i : Nat) (f : α → α) : Catalog α :=
  { c with entries := c.entries.modify i fun e ↦ (e.1, f e.2) }

end Catalog

end LiftedPlanning
