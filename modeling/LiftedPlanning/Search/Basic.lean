import LiftedPlanning.Encoding.Basic
import LiftedPlanning.Plan.Decoding

/-!
# Searching for plans

The formula of a problem is unrolled step by step. At each horizon a solver decides whether the goal
can hold at the last step; if it can, the model is decoded into a plan, and if not, the formula is
extended, unless the bounds forbid a plan with one more step.

The solver, the bounds and the report of what happens are parameters, and so is the monad they run
in: a pure function is a solver, and so is a program. What is proved about the search for pure
parameters says nothing about how they come to their answers.

Nothing makes a search end by itself if there is no plan. Horizons are 64-bit words, and a search
that would leave their range has no result.
-/

namespace LiftedPlanning

open Cnf (Literal Store Verdict)

/-- What happens during a search. -/
inductive SearchEvent
  | looking (steps : Nat)
  | found (actions steps : Nat)
  | noPlan (steps : Nat)
  | unrolled (horizon varCount : Nat)
  deriving DecidableEq, Repr

def SearchEvent.text : SearchEvent → String
  | .looking steps => s!"looking for a plan with {steps} step(s)"
  | .found actions steps => s!"found a plan with {actions} action(s) in {steps} step(s)"
  | .noPlan steps => s!"no plan with {steps} step(s)"
  | .unrolled horizon varCount =>
    s!"unrolled the formula up to horizon {horizon} ({varCount} variables)"

/-- Why a search has no result. -/
inductive SearchError
  | encoding (cause : EncodingError)
  | undecided (steps : Nat)
  | decoding (cause : DecodingError)
  deriving DecidableEq, Repr

instance : Explained SearchError where
  chain
    | .encoding cause => Explained.chain cause
    | .undecided steps =>
      [s!"the SAT solver was not able to decide the formula for {steps} step(s)"]
    | .decoding cause => Explained.chain cause

/-- What a search needs from outside. -/
structure SearchTools (m : Type → Type) where
  /-- Decides the clauses of a store under assumptions. -/
  decide : Store → List Literal → m Verdict
  /-- Whether the search may go on to a number of steps. -/
  allows : Nat → m Bool
  report : SearchEvent → m Unit

namespace Search

variable {m : Type → Type} [Monad m]

/-- Searches from a horizon on, through at most `fuel` horizons. -/
def run (tools : SearchTools m) (g : Grounding) (e : Encoding) :
    Nat → Unrolling → m (Option (Except SearchError PlanningResult))
  | 0, _ => return none
  | fuel + 1, u => do
    tools.report (.looking u.horizon)
    let goal := u.goal e.formula
    let store := u.store.assume goal
    match ← tools.decide store goal with
    | .satisfiable model =>
      match Plan.decode e.layout g model u.horizon with
      | .error cause => return some (.error (.decoding cause))
      | .ok plan =>
        tools.report (.found plan.size plan.makespan)
        return some (.ok (.plan plan))
    | .unsatisfiable =>
      tools.report (.noPlan u.horizon)
      let next := Unrolling.extend e.formula { u with store }
      tools.report (.unrolled next.horizon next.store.varCount)
      if ← tools.allows next.horizon then
        run tools g e fuel next
      else
        return some (.ok (.boundReached u.horizon))
    | .unknown => return some (.error (.undecided u.horizon))

/-- The number of horizons that a search can go through. -/
def horizonLimit : Nat := wordCount

/-- Searches a plan for an encoded problem. -/
def ofEncoding (tools : SearchTools m) (g : Grounding) (e : Encoding) :
    m (Option (Except SearchError PlanningResult)) :=
  run tools g e horizonLimit (.start e.formula .empty)

/-- Encodes a problem and searches a plan for it. -/
def ofProblem (tools : SearchTools m) (p : Problem) (g : Grounding) (strategy : Strategy) :
    m (Option (Except SearchError PlanningResult)) :=
  match Encoding.ofProblem p g strategy with
  | .error cause => return some (.error (.encoding cause))
  | .ok e => ofEncoding tools g e

end Search

end LiftedPlanning
