import LiftedPlanning.Grounding.Basic

/-!
# Plans

A plan has a number of steps, its makespan, and actions that are each executed at a step. A step may
hold several actions or none. The actions are listed in the order of their steps.
-/

namespace LiftedPlanning

/-- Actions with their steps. -/
structure Plan where
  makespan : Nat
  entries : List (Nat × Action) := []
  deriving DecidableEq, Repr

namespace Plan

/-- The plan of a given number of steps that does nothing. -/
def idle (makespan : Nat) : Plan :=
  { makespan }

/-- Appends an action. Its step has to be a step of the plan, and none before the last one used. -/
def push? (plan : Plan) (step : Nat) (action : Action) : Option Plan :=
  if step < plan.makespan ∧ (plan.entries.getLast?).all (·.1 ≤ step) then
    some { plan with entries := plan.entries ++ [(step, action)] }
  else
    none

def size (plan : Plan) : Nat :=
  plan.entries.length

def actionsAt (plan : Plan) (step : Nat) : List Action :=
  (plan.entries.filter (·.1 = step)).map (·.2)

/-! ## Texts -/

/-- The line of an action, with its step in front. -/
def entryLine (entry : Nat × Action) : String :=
  s!"{entry.1}: {entry.2.name}\n"

/-- A plan reads as a line per action and a line for the makespan. -/
def text (plan : Plan) : String :=
  String.join (plan.entries.map entryLine) ++ s!"makespan {plan.makespan}\n"

end Plan

inductive PlanningResult
  | plan (plan : Plan)
  /-- The search was ended after the given number of steps; this proves nothing about the rest. -/
  | boundReached (steps : Nat)
  deriving DecidableEq, Repr

def noPlanText : String := "NO PLAN\n"

def PlanningResult.text : PlanningResult → String
  | .plan found => found.text
  | .boundReached _ => noPlanText

end LiftedPlanning
