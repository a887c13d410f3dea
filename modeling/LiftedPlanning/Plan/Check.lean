import LiftedPlanning.Plan.Basic

/-!
# Checking plans

A plan is checked by executing it from the initial state. All the preconditions of a step are tested
in the state before the step; then the atoms that its actions delete are removed, and after that the
atoms that they add are put in. The goal is tested in the last state. The first failure is reported.
-/

namespace LiftedPlanning

inductive PlanErrorCause
  | complexCondition (operator : String)
  | openCondition (condition : String)
  | precondition (negated : Bool) (atom : String)
  | openGoal
  | goal (condition : String)
  /-- An operator that the problem has not issued. -/
  | unknownHandle
  deriving DecidableEq, Repr

def PlanErrorCause.text : PlanErrorCause → String
  | .complexCondition operator => s!"operator {operator} has a complex condition"
  | .openCondition condition => s!"cannot ground {condition}"
  | .precondition true atom => s!"precondition -{atom} does not hold"
  | .precondition false atom => s!"precondition {atom} does not hold"
  | .openGoal => "goal conditions must be ground"
  | .goal condition => s!"goal {condition} does not hold at the end of the plan"
  | .unknownHandle => "unknown handle"

/-- Why a plan is refused, and the action and step that it is refused for, if there are. -/
structure PlanError where
  place : Option (String × Nat) := none
  cause : PlanErrorCause
  deriving DecidableEq, Repr

instance : Explained PlanError where
  chain e :=
    (e.place.map fun (action, step) ↦ s!"while checking action {action} at step {step}").toList ++
      [e.cause.text]

/-- The atoms that hold, all others being false. -/
abbrev State := List GroundAtom

namespace State

/-- Whether an atom has a sign in a state. -/
def agrees (s : State) (a : GroundAtom) (negated : Bool) : Bool :=
  (a ∈ s) != negated

/-- Removes atoms, then puts atoms in. -/
def update (s : State) (deleted added : List GroundAtom) : State :=
  s.filter (· ∉ deleted) ++ added

end State

namespace Plan

/-- The signed atoms of an action for a role. -/
def groundConditions (p : Problem) (a : Action) (role : Role) :
    Except PlanErrorCause (List (GroundAtom × Bool)) :=
  match p.operator? a.operator with
  | none => .error .unknownHandle
  | some op =>
    match (op.formula role).flat? with
    | none => .error (.complexCondition (p.operatorName a.operator))
    | some conditions =>
      conditions.mapM fun c ↦
        match c.groundWith (op.argument? a.args) with
        | some atom => .ok (atom, c.negated)
        | none => .error (.openCondition (p.conditionText c))

/-- Tests the preconditions of an action. -/
def checkPreconditions (p : Problem) (s : State) (a : Action) : Except PlanErrorCause Unit := do
  let conditions ← groundConditions p a .precondition
  match conditions.find? fun (atom, negated) ↦ !s.agrees atom negated with
  | some (atom, negated) => throw (.precondition negated (p.atomText atom))
  | none => return ()

/-- Tests an action of a step, and returns its signed effects. -/
def checkAction (p : Problem) (s : State) (step : Nat) (a : Action) :
    Except PlanError (List (GroundAtom × Bool)) :=
  let effects := do
    checkPreconditions p s a
    groundConditions p a .effect
  effects.mapError fun cause ↦ ⟨some (a.name, step), cause⟩

def checkStep (p : Problem) (plan : Plan) (s : State) (step : Nat) : Except PlanError State := do
  let effects ← (plan.actionsAt step).mapM (checkAction p s step)
  let (deleted, added) := effects.flatten.partition (·.2)
  return s.update (deleted.map (·.1)) (added.map (·.1))

def checkGoal (p : Problem) (s : State) (c : Condition) : Except PlanError Unit :=
  match c.groundAtom? with
  | none => .error { cause := .openGoal }
  | some a =>
    if s.agrees a c.negated then .ok () else .error { cause := .goal (p.conditionText c) }

/-- Executes a plan and tests the goal. -/
def check (p : Problem) (plan : Plan) : Except PlanError Unit := do
  let s ← (List.range plan.makespan).foldlM (plan.checkStep p) p.init
  p.goal.forM (checkGoal p s)

end Plan

end LiftedPlanning
