import LiftedPlanning.Layout
import LiftedPlanning.Plan.Basic
import LiftedPlanning.Cnf.Assignment

/-!
# Decoding plans

An assignment of the variables of the first steps describes a plan: at each step, the active
operators are executed with the constants selected for them. Exactly one constant has to be selected
at each position of an active operator, and the grounding has to know the action.
-/

namespace LiftedPlanning

open Cnf (Assignment)

/-- What keeps an active operator from being an action. -/
inductive DecodingCause
  | unselected (position : Nat) (operator : OperatorId)
  | ambiguous (position : Nat) (operator : OperatorId)
  | unknownAction (cause : GroundingError)
  deriving DecidableEq, Repr

/-- Why an assignment describes no plan. -/
structure DecodingError where
  step : Nat
  cause : DecodingCause
  deriving DecidableEq, Repr

instance : Explained DecodingError where
  chain e :=
    s!"while decoding step {e.step}" ::
      match e.cause with
      | .unselected position operator =>
        [s!"no constant selected for position {position} of active operator {operator.text}"]
      | .ambiguous position operator =>
        [s!"several constants selected for position {position} " ++
          s!"of active operator {operator.text}"]
      | .unknownAction cause => Explained.chain cause

namespace Plan

/-- The constant selected at a position, in the block that starts after `offset` variables. -/
def decodePosition (l : Layout) (m : Assignment) (offset : Nat) (op : OperatorId)
    (position : Nat) : Except DecodingCause ConstantId :=
  match (l.choices op position).filter fun choice ↦ m.satisfies (choice.2.shift offset) with
  | [] => .error (.unselected position op)
  | [(c, _)] => .ok c
  | _ => .error (.ambiguous position op)

def decodeAction (l : Layout) (g : Grounding) (m : Assignment) (offset : Nat) (op : OperatorId) :
    Except DecodingCause Action := do
  let args ← (l.positions op).mapM (decodePosition l m offset op)
  (g.findAction op args).mapError .unknownAction

/-- The actions of a step, in the order of the operators. -/
def decodeStep (l : Layout) (g : Grounding) (m : Assignment) (step : Nat) :
    Except DecodingError (List (Nat × Action)) :=
  let offset := step * l.size
  let active := l.operators.filter fun op ↦ m.satisfies ((l.active op).shift offset)
  active.mapM fun op ↦
    match decodeAction l g m offset op with
    | .ok action => .ok (step, action)
    | .error cause => .error ⟨step, cause⟩

/-- The actions of `n` steps from step `k` on. Decoding ends at the first step that fails. -/
def decodeSteps (l : Layout) (g : Grounding) (m : Assignment) :
    Nat → Nat → Except DecodingError (List (Nat × Action))
  | 0, _ => return []
  | n + 1, k => do
    let actions ← decodeStep l g m k
    return actions ++ (← decodeSteps l g m n (k + 1))

/-- The plan of a given number of steps that an assignment describes. -/
def decode (l : Layout) (g : Grounding) (m : Assignment) (makespan : Nat) :
    Except DecodingError Plan := do
  return ⟨makespan, ← decodeSteps l g m makespan 0⟩

end Plan

end LiftedPlanning
