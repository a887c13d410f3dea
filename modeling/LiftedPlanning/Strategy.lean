import LiftedPlanning.Explanation

/-!
# Strategies

How a problem is encoded: whether a step holds one action or several, and where the eligible
constants of a parameter come from.
-/

namespace LiftedPlanning

/-- What may happen in a step. -/
inductive StepSemantics
  /-- At most one operator is active. -/
  | sequential
  /-- Several operators may be active, provided that they do not interfere. -/
  | parallel
  deriving DecidableEq, Repr

/-- The source of the eligible constants. -/
inductive EligibilityMode
  /-- The types of the parameters. -/
  | lifted
  /-- The actions of the grounding. -/
  | grounded
  deriving DecidableEq, Repr

/-- A name that no strategy has. -/
inductive StrategyError
  | unknownSemantics (text : String)
  | unknownEligibility (text : String)
  deriving DecidableEq, Repr

instance : Explained StrategyError where
  chain
    | .unknownSemantics text => [s!"undefined step semantics \"{text}\""]
    | .unknownEligibility text => [s!"undefined eligibility mode \"{text}\""]

def StepSemantics.text : StepSemantics → String
  | .sequential => "sequential"
  | .parallel => "parallel"

/-- The semantics of a given name; ASCII letters count in either case. -/
def StepSemantics.ofText (text : String) : Except StrategyError StepSemantics :=
  match text.map Char.toLower with
  | "sequential" => .ok .sequential
  | "parallel" => .ok .parallel
  | _ => .error (.unknownSemantics text)

def EligibilityMode.text : EligibilityMode → String
  | .lifted => "lifted"
  | .grounded => "grounded"

/-- The mode of a given name; ASCII letters count in either case. -/
def EligibilityMode.ofText (text : String) : Except StrategyError EligibilityMode :=
  match text.map Char.toLower with
  | "lifted" => .ok .lifted
  | "grounded" => .ok .grounded
  | _ => .error (.unknownEligibility text)

/-- The two choices that an encoding depends on. -/
structure Strategy where
  semantics : StepSemantics
  eligibility : EligibilityMode
  deriving DecidableEq, Repr

namespace Strategy

/-- A strategy reads as its semantics and its mode, like `parallel/lifted`. -/
def text (s : Strategy) : String :=
  s.semantics.text ++ "/" ++ s.eligibility.text

/-- The strategy of two names, the semantics being read first. -/
def ofTexts (semantics eligibility : String) : Except StrategyError Strategy := do
  return ⟨← StepSemantics.ofText semantics, ← EligibilityMode.ofText eligibility⟩

end Strategy

end LiftedPlanning
