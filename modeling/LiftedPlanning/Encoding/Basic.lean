import LiftedPlanning.Encoding.Formula
import LiftedPlanning.Encoding.Frame
import LiftedPlanning.Encoding.Interference
import LiftedPlanning.Encoding.Selection

/-!
# Encoding problems

A problem is encoded for a grounding and a strategy. The operators are not grounded: a step has one
variable per operator, one per constant that is eligible for a parameter, and one per atom of the
universe. The clauses come in a fixed order: in the universal group the selection clauses, the
clauses of preconditions and forbidden choices, and the interference clauses of parallel steps; in
the transition group the clauses of effects and the frame clauses.
-/

namespace LiftedPlanning

open Cnf (Literal Clause)

/-- The sizes of the parts of an encoding. -/
structure EncodingStatistics where
  stepSize : Nat
  active : Nat
  selected : Nat
  atoms : Nat
  initial : Nat
  goal : Nat
  parameters : Nat
  preconditions : Nat
  forbidden : Nat
  interference : Nat
  effects : Nat
  frame : Nat
  support : Nat
  deriving DecidableEq, Repr

namespace EncodingStatistics

/-- The number of clauses that hold at every step. -/
def universal (s : EncodingStatistics) : Nat :=
  s.parameters + s.preconditions + s.forbidden + s.interference

/-- The number of clauses that link a step to the next one. -/
def transition (s : EncodingStatistics) : Nat :=
  s.effects + s.frame

/-- The sizes, with the parts that they are made up of. -/
def text (s : EncodingStatistics) : String :=
  s!"{s.stepSize} vars/step ({s.active} active, {s.selected} selected, {s.atoms} holds); " ++
  s!"{s.initial} initial clauses, {s.goal} goal literals; " ++
  s!"{s.universal} universal clauses ({s.parameters} parameters, " ++
  s!"{s.preconditions} preconditions, {s.forbidden} forbidden, " ++
  s!"{s.interference} interference); " ++
  s!"{s.transition} transition clauses ({s.effects} effects, {s.frame} frame); " ++
  s!"{s.support} support entries"

end EncodingStatistics

structure Encoding where
  layout : Layout
  formula : ReachabilityFormula
  support : Support Encoding.Supporter
  statistics : EncodingStatistics

namespace Encoding

def eligibility (p : Problem) (g : Grounding) : EligibilityMode → Eligibility
  | .lifted => .byType p
  | .grounded => .byReachability p g

/-- A unit clause for each atom of the universe: it holds exactly if it is an initial atom. -/
def initialClauses (p : Problem) (g : Grounding) (l : Layout) : List Clause :=
  g.atoms.zipIdx.map fun (a, i) ↦
    if a ∈ p.init then [l.holds ⟨i⟩] else [(l.holds ⟨i⟩).negate]

/-- The literal of a goal condition, whose atom has to be in the universe. -/
def goalLiteral (p : Problem) (g : Grounding) (l : Layout) (c : Condition) :
    Except EncodingError Literal :=
  match c.groundAtom? with
  | none => .error .openGoal
  | some a =>
    match g.atomId? a with
    | none => .error (.missingGoalAtom (p.atomText a))
    | some id => .ok (if c.negated then (l.holds id).negate else l.holds id)

/-- Puts an encoding together from its goal and the occurrences of its rules. -/
def assemble (p : Problem) (g : Grounding) (strategy : Strategy) (l : Layout)
    (goal : List Literal) (occurrences : List Occurrence) : Encoding :=
  let support := supportOf occurrences
  let initial := initialClauses p g l
  let selection := selectionClauses l strategy.semantics
  let interference := match strategy.semantics with
    | .sequential => []
    | .parallel => interferenceClauses l support
  let effects := occurrences.filterMap (·.effectClause? l)
  let frame := frameClauses l support
  { layout := l
    support
    formula :=
      { initial
        goal
        universal :=
          selection ++ occurrences.filterMap (·.universalClause? l) ++ interference
        transition := effects ++ frame
        stepSize := l.size }
    statistics :=
      { stepSize := l.size
        active := l.operatorCount
        selected := l.selectedCount
        atoms := l.atomCount
        initial := initial.length
        goal := goal.length
        parameters := selection.length
        preconditions := (occurrences.filterMap (·.preconditionClause? l)).length
        forbidden := (occurrences.filterMap (·.forbiddenClause?)).length
        interference := interference.length
        effects := effects.length
        frame := frame.length
        support := support.size } }

def layoutOf (p : Problem) (g : Grounding) (mode : EligibilityMode) : Layout :=
  .ofEligibility (eligibility p g mode) g.atoms.length

def ofProblem (p : Problem) (g : Grounding) (strategy : Strategy) :
    Except EncodingError Encoding := do
  let l := layoutOf p g strategy.eligibility
  let goal ← p.goal.mapM (goalLiteral p g l)
  let rules ← rules p l.eligibility
  let occurrences ← rules.mapM (Rule.occurrences p g l)
  return assemble p g strategy l goal occurrences.flatten

end Encoding

end LiftedPlanning
