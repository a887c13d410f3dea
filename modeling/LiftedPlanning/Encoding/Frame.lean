import LiftedPlanning.Encoding.Rule

/-!
# Frame clauses

An atom keeps its value unless an active effect changes it: a change implies that one of the
conjunctions of effects with the new value is true. That is a disjunction of conjunctions, which is
turned into clauses by choosing one literal of every conjunction in all possible ways.
-/

namespace LiftedPlanning.Encoding

open Cnf (Literal Clause)

/-- Clauses for "some of the literals `common`, or all the literals of some branch". Branches of a
single literal join the common part, and an empty branch is true, so that nothing is left to say. -/
def clausesOfBranches (common : List Literal) (branches : List (List Literal)) : List Clause :=
  if branches.any List.isEmpty then
    []
  else
    let single (branch : List Literal) := branch.length == 1
    let common := common ++ (branches.filter single).flatten
    (combinations (branches.filter fun branch ↦ !single branch)).map (common ++ ·)

/-- The clauses for one direction of change of an atom. -/
def changeClauses (l : Layout) (s : Support Supporter) (a : AtomId) (becomesTrue : Bool) :
    List Clause :=
  let now := l.holds a
  let next := now.shift l.size
  let unchanged := if becomesTrue then [now, next.negate] else [now.negate, next]
  clausesOfBranches unchanged ((s.supporters a becomesTrue .effect).map (·.conjunction))

/-- The clauses of all atoms, each for becoming true and for becoming false. -/
def frameClauses (l : Layout) (s : Support Supporter) : List Clause :=
  l.atoms.flatMap fun a ↦ [true, false].flatMap (changeClauses l s a)

end LiftedPlanning.Encoding
