import LiftedPlanning.Combination
import LiftedPlanning.Eligibility

/-!
# Relaxed grounding

The grounder ignores negative preconditions and deletions. An action, here an instance of an
operator by constants of fitting types, is reachable once all its positive preconditions are
reached; its positive effects are then reached in turn, starting from the initial state.

The candidates are scanned in rounds, effects counting at once within a round, until a round
fires no candidate any more. The reachable actions are then the candidates whose positive
preconditions are among the atoms reached. The universe holds the initial atoms, the goal atoms, and
all the atoms that a reachable action mentions.
-/

namespace LiftedPlanning

/-- What the grounder cannot deal with. -/
inductive RelaxationCause
  | complex (role : Role)
  | foreignVariable (condition : String)
  | openGoal
  | entry (cause : GroundingError)
  deriving DecidableEq, Repr

def RelaxationCause.chain : RelaxationCause → List String
  | .complex role => [s!"the {role.text} is not a conjunction of literals"]
  | .foreignVariable condition =>
    [s!"condition {condition} involves a variable that is not a parameter"]
  | .openGoal => ["goal conditions must be ground"]
  | .entry cause => Explained.chain cause

/-- A failure of the grounder, and the operator it arose in, if it did in one. -/
structure RelaxationError where
  operator : Option String := none
  cause : RelaxationCause
  deriving DecidableEq, Repr

instance : Explained RelaxationError where
  chain e :=
    (e.operator.map fun name ↦ s!"while grounding operator {name}").toList ++ e.cause.chain

/-- An operator whose precondition and effect are conjunctions of conditions. -/
structure FlatOperator where
  id : OperatorId
  schema : Operator
  preconditions : List Condition
  effects : List Condition

namespace FlatOperator

/-- Flattens an operator. Its conditions may only use its own parameters. -/
def ofOperator (p : Problem) (id : OperatorId) (name : String) (op : Operator) :
    Except RelaxationError FlatOperator :=
  match op.precondition.flat?, op.effect.flat? with
  | none, _ => .error ⟨name, .complex .precondition⟩
  | some _, none => .error ⟨name, .complex .effect⟩
  | some preconditions, some effects =>
    let foreign (c : Condition) := c.vars.any fun v ↦ (op.position? v).isNone
    match (preconditions ++ effects).find? foreign with
    | some c => .error ⟨name, .foreignVariable (p.conditionText c)⟩
    | none => .ok ⟨id, op, preconditions, effects⟩

def atom? (op : FlatOperator) (args : List ConstantId) (c : Condition) : Option GroundAtom :=
  c.groundWith (op.schema.argument? args)

def needs (op : FlatOperator) (args : List ConstantId) : List GroundAtom :=
  (op.preconditions.filter fun c ↦ !c.negated).filterMap (op.atom? args)

def adds (op : FlatOperator) (args : List ConstantId) : List GroundAtom :=
  (op.effects.filter fun c ↦ !c.negated).filterMap (op.atom? args)

/-- All the atoms that the preconditions, then the effects, mention under arguments. -/
def mentions (op : FlatOperator) (args : List ConstantId) : List GroundAtom :=
  (op.preconditions ++ op.effects).filterMap (op.atom? args)

end FlatOperator

/-- An instance of an operator that may turn out to be reachable. -/
structure Candidate where
  operator : FlatOperator
  args : List ConstantId

namespace Candidate

/-- Whether the positive preconditions are all reached. -/
def isReachable (c : Candidate) (reached : AtomTable) : Bool :=
  (c.operator.needs c.args).all fun a ↦ (reached.place? a.key).isSome

/-- The instances of an operator by eligible constants, in odometer order. -/
def ofOperator (e : Eligibility) (op : FlatOperator) : List Candidate :=
  (combinations (e.setsOf op.id)).map (⟨op, ·⟩)

end Candidate

namespace Relaxation

/-- One round: the candidates that did not fire, and the atoms reached after it. -/
def round : List Candidate → AtomTable → List Candidate × AtomTable
  | [], reached => ([], reached)
  | c :: cs, reached =>
    if c.isReachable reached then
      round cs ((c.operator.adds c.args).foldl Roster.insert reached)
    else
      let (idle, reached) := round cs reached
      (c :: idle, reached)

theorem length_round_le (cs : List Candidate) (reached : AtomTable) :
    (round cs reached).1.length ≤ cs.length := by
  induction cs generalizing reached with
  | nil => simp [round]
  | cons c cs ih =>
    rw [round]
    split
    · exact Nat.le_succ_of_le (ih _)
    · exact Nat.succ_le_succ (ih _)

/-- Runs rounds until one fires nothing: the atoms reached, and the number of rounds, the last one
included. -/
def saturate (cs : List Candidate) (reached : AtomTable) : AtomTable × Nat :=
  let result := round cs reached
  if result.1.length < cs.length then
    let (reached, rounds) := saturate result.1 result.2
    (reached, rounds + 1)
  else
    (result.2, 1)
termination_by cs.length

end Relaxation

/-- A grounding and the number of rounds that it took. -/
structure RelaxedGrounding where
  grounding : Grounding
  rounds : Nat

namespace RelaxedGrounding

/-- Enters the atoms that are not there yet. -/
def addAtoms (g : Grounding) (atoms : List GroundAtom) : Grounding :=
  atoms.foldl (fun g a ↦ (g.addAtom a).2) g

/-- Enters a reachable action and the atoms it mentions. -/
def addCandidate (p : Problem) (g : Grounding) (c : Candidate) :
    Except RelaxationError Grounding :=
  match g.addAction p c.operator.id c.args with
  | .error cause => .error { cause := .entry cause }
  | .ok (_, g) => .ok (addAtoms g (c.operator.mentions c.args))

def goalAtoms (p : Problem) : Except RelaxationError (List GroundAtom) :=
  p.goal.mapM fun c ↦
    match c.groundAtom? with
    | some a => .ok a
    | none => .error { cause := .openGoal }

def ofProblem (p : Problem) : Except RelaxationError RelaxedGrounding := do
  let operators ← p.namedOperators.mapM fun (id, name, op) ↦ FlatOperator.ofOperator p id name op
  let candidates := operators.flatMap (Candidate.ofOperator (.byType p))
  let (reached, rounds) := Relaxation.saturate candidates (p.init.foldl Roster.insert .empty)
  let goal ← goalAtoms p
  let known := addAtoms (addAtoms .empty p.init) goal
  let grounding ← (candidates.filter (·.isReachable reached)).foldlM (addCandidate p) known
  return ⟨grounding, rounds⟩

end RelaxedGrounding

end LiftedPlanning
