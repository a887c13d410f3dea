import LiftedPlanning.Layout
import LiftedPlanning.Strategy

/-!
# Selection clauses

An active operator selects exactly one eligible constant at each of its positions, and an inactive
one selects none. A position without eligible constants keeps its operator inactive. Under the
sequential semantics no two operators are active together.
-/

namespace LiftedPlanning.Encoding

open Cnf (Literal Clause)

/-- No two of the literals are true. -/
def exclusions : List Literal → List Clause
  | [] => []
  | l :: rest => rest.map (fun other ↦ [l.negate, other.negate]) ++ exclusions rest

/-- Each selection makes the operator active and excludes the selections after it. -/
def choiceClauses (active : Literal) : List Literal → List Clause
  | [] => []
  | s :: rest =>
    [s.negate, active] :: rest.map (fun other ↦ [s.negate, other.negate]) ++
      choiceClauses active rest

/-- The clauses of a position: some constant is selected if the operator is active, and the clauses
of the single choices. -/
def positionClauses (active : Literal) (selected : List Literal) : List Clause :=
  (active.negate :: selected) :: choiceClauses active selected

def operatorClauses (l : Layout) (op : OperatorId) : List Clause :=
  (l.positions op).flatMap fun position ↦
    positionClauses (l.active op) ((l.choices op position).map (·.2))

/-- The selection clauses of all operators, and the exclusion of simultaneous operators where a step
holds one action only. -/
def selectionClauses (l : Layout) (semantics : StepSemantics) : List Clause :=
  l.operators.flatMap (operatorClauses l) ++
    match semantics with
    | .sequential => exclusions (l.operators.map l.active)
    | .parallel => []

end LiftedPlanning.Encoding
