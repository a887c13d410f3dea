import LiftedPlanning.Problem.Basic

/-!
# Support

The support index records who makes an atom true or false, as an effect, and who needs it true or
false, as a precondition. An entry is recorded once; the supporters of an atom are listed in the
order in which they were recorded.
-/

namespace LiftedPlanning

/-- A supporter of an atom, with the sign and the role of the condition that it grounds. -/
structure SupportEntry (α : Type) where
  atom : AtomId
  positive : Bool
  role : Role
  supporter : α
  deriving DecidableEq, Repr

/-- The entries in order of record, without repetition. -/
structure Support (α : Type) where
  entries : List (SupportEntry α) := []

namespace Support

variable {α : Type} [DecidableEq α]

def empty : Support α := {}

/-- Records an entry; tells whether it is new. -/
def record (s : Support α) (e : SupportEntry α) : Bool × Support α :=
  if e ∈ s.entries then (false, s) else (true, { s with entries := s.entries ++ [e] })

/-- The supporters of an atom for a sign and a role. -/
def supporters (s : Support α) (atom : AtomId) (positive : Bool) (role : Role) : List α :=
  (s.entries.filter fun e ↦ e.atom = atom && e.positive = positive && e.role = role).map
    (·.supporter)

/-- The atoms that have supporters for a sign and a role, in increasing order. -/
def supportedAtoms (s : Support α) (positive : Bool) (role : Role) : List AtomId :=
  let entries := s.entries.filter fun e ↦ e.positive = positive && e.role = role
  let atoms := (entries.map (·.atom.index)).eraseDups
  (atoms.mergeSort (· ≤ ·)).map Handle.mk

def size (s : Support α) : Nat :=
  s.entries.length

end Support

end LiftedPlanning
