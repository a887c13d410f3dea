import LiftedPlanning.Cnf.Assignment
import LiftedPlanning.Cnf.Solver.Search
import LiftedPlanning.Cnf.Store
import LiftedPlanning.Word

/-!
# Least models

A set of clauses may have many models. The least one, in lexicographic order with false before true
and the first variable counting most, is a canonical choice among them, and the solver of this
module returns it.

It is found by improving on a model, variable by variable. A variable that is false in the model at
hand stays false. For one that is true, a model is searched in which it is false, with all the
variables before it as they are; if there is none, the variable is true in the least model.

A model is checked against the clauses before it is returned. So that it is one does not depend on
how it was found.
-/

namespace LiftedPlanning.Cnf.LeastModel

/-- Marks the variables of clauses among the first `n`. -/
def mentionMarks (n : Nat) (clauses : List Clause) : Array Bool :=
  clauses.foldl (fun marks c ↦
    c.foldl (fun (marks : Array Bool) l ↦ marks.setIfInBounds l.var true) marks)
    (.replicate n false)

/-- The state of a search over the first `n` variables. Those that no clause mentions are false. -/
def prepare (n : Nat) (clauses : List Clause) : Solver :=
  let marks := mentionMarks n clauses
  let s := clauses.foldl Solver.addClause (.ofCount n)
  (List.range n).foldl (fun s v ↦ if marks.getD v true then s else s.fix (Code.neg v)) s

/-- Fixes a literal that some model makes true. -/
def settle (s : Solver) (l : Nat) : Solver :=
  ((s.fix l).propagate).2

/-- Lowers the variables of a list, which is in increasing order, in a model that agrees with what
is fixed already. -/
def improve : List Nat → Array Bool → Solver → Array Bool
  | [], model, _ => model
  | v :: vs, model, s =>
    if !s.isOpen v then
      improve vs model s
    else if !model.getD v false then
      improve vs model (settle s (Code.neg v))
    else
      match s.run (some v) with
      | (.model, s) => improve vs s.model (settle s.restart (Code.neg v))
      | (_, s) => improve vs model s.restart

/-- The outcome of a search over the first `n` variables of clauses, with the values of the least
model if there is one. -/
def searchLeast (n : Nat) (clauses : List Clause) : Solver.Outcome × Array Bool :=
  match (prepare n clauses).run none with
  | (.model, s) => (.model, improve (List.range n) s.model s.restart)
  | (outcome, _) => (outcome, #[])

/-- The assignment of `n` variables by a table; the variables that it leaves out are false. -/
def assignmentOf (n : Nat) (values : Array Bool) : Assignment :=
  ⟨(Array.range n).map fun v ↦ some (values.getD v false)⟩

/-- Decides the clauses of a store under assumptions. -/
def solve (s : Store) (assumptions : List Literal) : Verdict :=
  let clauses := s.instanceClauses assumptions
  let n := clauses.foldl (fun n c ↦ max n c.maxNumber) 0
  match searchLeast n clauses with
  | (.model, values) =>
    let model := assignmentOf s.varCount values
    if clauses.all model.satisfiesClause then .satisfiable model else .unknown
  | (.unsatisfiable, _) => .unsatisfiable
  | _ => .unknown

/-- `solve`, unless there is a model and its values are more than a table in memory can hold. -/
def solve? (s : Store) (assumptions : List Literal) : Option Verdict :=
  if s.varCount < signBound then
    some (solve s assumptions)
  else
    match solve { s with varCount := Clause.maxNumber (s.clauses.flatten ++ assumptions) }
        assumptions with
    | .satisfiable _ => none
    | verdict => some verdict

end LiftedPlanning.Cnf.LeastModel
