import LiftedPlanning.Problem.Construction

/-!
# Validation of problems

The check of a whole problem: every condition fits its predicate, the variables of an operator's
conditions are its own parameters, and the goal is ground. Building a problem already enforces all
of this except the scope of variables.
-/

namespace LiftedPlanning.Problem

/-- Checks that the variables of a condition are parameters of the operator. -/
def checkScope (p : Problem) (op : Operator) (c : Condition) : Except ProblemError Unit :=
  match c.vars.find? fun v ↦ (op.position? v).isNone with
  | none => .ok ()
  | some v => .error (.foreignVariable (p.variableName v) (p.conditionText c))

/-- Checks the precondition, then the effect of an operator. -/
def validateOperator (p : Problem) (op : Operator) : Except ProblemError Unit :=
  [op.precondition, op.effect].forM fun f ↦ do
    p.checkFormula f
    f.conditions.forM (p.checkScope op)

def validateGoal (p : Problem) (c : Condition) : Except ProblemError Unit := do
  (p.checkCondition c).mapError (.during .validatingGoal)
  unless c.isGround do
    throw .openGoal

/-- Checks the operators, the initial state and the goal, in this order. -/
def validate (p : Problem) : Except ProblemError Unit := do
  p.operators.entries.forM fun (name, op) ↦
    (p.validateOperator op).mapError (.during (.validatingOperator name))
  p.init.forM fun a ↦
    (p.checkCondition a.toCondition).mapError (.during .validatingInitialState)
  p.goal.forM p.validateGoal

end LiftedPlanning.Problem
