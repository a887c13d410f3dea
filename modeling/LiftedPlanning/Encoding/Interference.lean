import LiftedPlanning.Encoding.Rule

/-!
# Interference clauses

Two different operators interfere if one gives an atom the sign opposite to what the other needs.
They may not be active together with the constants concerned. This is what makes the actions of a
parallel step executable in any order.
-/

namespace LiftedPlanning.Encoding

open Cnf (Literal Clause)

/-- The supporters of an effect and of a precondition are not active together. -/
def exclude (s t : Supporter) : Clause :=
  (s.conjunction ++ t.conjunction).map Literal.negate

/-- The clauses of the effects that give an atom a sign, against what needs the other sign. -/
def atomInterference (s : Support Supporter) (a : AtomId) (positive : Bool) : List Clause :=
  let needs := s.supporters a (!positive) .precondition
  (s.supporters a positive .effect).flatMap fun effect ↦
    (needs.filter fun need ↦ need.binding.operator ≠ effect.binding.operator).map (exclude effect)

/-- The clauses of all atoms, for the effects that add them and then for those that delete them. -/
def interferenceClauses (l : Layout) (s : Support Supporter) : List Clause :=
  [true, false].flatMap fun positive ↦ l.atoms.flatMap fun a ↦ atomInterference s a positive

end LiftedPlanning.Encoding
