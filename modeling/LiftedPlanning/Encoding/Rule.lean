import LiftedPlanning.Combination
import LiftedPlanning.Layout
import LiftedPlanning.Support

/-!
# Rules of operators

Every condition of an operator is a rule: whenever the operator is active, the condition holds, now
if it is a precondition and in the next step if it is an effect. A rule has one occurrence for each
choice of eligible constants at the positions that the condition mentions, whatever is chosen
elsewhere; this is what keeps the encoding lifted.

The clause of an occurrence says that its conjunction implies the atom. If the atom is not in the
universe, the choice is forbidden instead, for whatever operator is active with it.
-/

namespace LiftedPlanning

open Cnf (Literal Clause)

inductive EncodingError
  | openGoal
  | missingGoalAtom (atom : String)
  | complex (role : Role) (operator : String)
  | mapping (operator : String) (cause : MappingError)
  | openCondition (condition : String)
  deriving DecidableEq, Repr

instance : Explained EncodingError where
  chain
    | .openGoal => ["while encoding the goal", "goal conditions must be ground"]
    | .missingGoalAtom atom =>
      ["while encoding the goal", s!"goal atom {atom} is not part of the atom universe"]
    | .complex role operator =>
      [s!"the {role.text} of operator {operator} is not a conjunction of literals"]
    | .mapping operator cause => s!"while encoding operator {operator}" :: Explained.chain cause
    | .openCondition condition => [s!"cannot ground condition {condition}"]

namespace Encoding

/-- A condition of an operator, in its role. -/
structure Rule where
  operator : OperatorId
  schema : Operator
  role : Role
  condition : Condition
  mapping : Mapping

/-- The rules of an operator that come from one of its formulas. -/
def formulaRules (p : Problem) (id : OperatorId) (name : String) (op : Operator) (role : Role) :
    Except EncodingError (List Rule) :=
  match (op.formula role).flat? with
  | none => .error (.complex role name)
  | some conditions =>
    conditions.mapM fun c ↦
      match Mapping.ofCondition p id op c with
      | .ok mapping => .ok ⟨id, op, role, c, mapping⟩
      | .error cause => .error (.mapping name cause)

/-- The rules of an operator, those of its precondition first. -/
def operatorRules (p : Problem) (id : OperatorId) (name : String) (op : Operator) :
    Except EncodingError (List Rule) := do
  let preconditions ← formulaRules p id name op .precondition
  let effects ← formulaRules p id name op .effect
  return preconditions ++ effects

/-- The rules of all the operators that can be selected, in order of declaration. -/
def rules (p : Problem) (e : Eligibility) : Except EncodingError (List Rule) := do
  let operators := p.namedOperators.filter fun (id, _) ↦ e.isSelectable id
  let rules ← operators.mapM fun (id, name, op) ↦ operatorRules p id name op
  return rules.flatten

/-- A binding and the literals that say that its operator is active with it. -/
structure Supporter where
  binding : Binding
  conjunction : List Literal
  deriving DecidableEq, Repr

/-- A rule under a choice of constants. -/
structure Occurrence where
  rule : Rule
  supporter : Supporter
  /-- The atom that the condition stands for, if it is in the universe. -/
  atom : Option AtomId

/-- The occurrence of a rule for a choice of constants, each with the literal selecting it. -/
def Rule.occurrence (p : Problem) (g : Grounding) (l : Layout) (r : Rule)
    (choice : List (ConstantId × Literal)) : Except EncodingError Occurrence :=
  let binding := Binding.ofMapping r.mapping (choice.map (·.1))
  match binding.ground? r.schema r.condition with
  | none => .error (.openCondition (p.conditionText r.condition))
  | some a => .ok ⟨r, ⟨binding, l.active r.operator :: choice.map (·.2)⟩, g.atomId? a⟩

/-- The occurrences of a rule, in odometer order. -/
def Rule.occurrences (p : Problem) (g : Grounding) (l : Layout) (r : Rule) :
    Except EncodingError (List Occurrence) :=
  (combinations (r.mapping.slots.map (l.choices r.operator))).mapM (r.occurrence p g l)

namespace Occurrence

/-- The literal of an atom, with the sign that the condition gives it. -/
def literal (l : Layout) (o : Occurrence) (a : AtomId) : Literal :=
  if o.rule.condition.negated then (l.holds a).negate else l.holds a

/-- The conjunction implies a literal. -/
def implies (o : Occurrence) (conclusion : Literal) : Clause :=
  o.supporter.conjunction.map Literal.negate ++ [conclusion]

/-- The choice is not made; without a choice, the operator is not active. -/
def forbids (o : Occurrence) : Clause :=
  match o.supporter.conjunction with
  | [] => []
  | [active] => [active.negate]
  | _ :: selections => selections.map Literal.negate

/-- The clause of a precondition whose atom is in the universe. -/
def preconditionClause? (l : Layout) (o : Occurrence) : Option Clause :=
  match o.rule.role, o.atom with
  | .precondition, some a => some (o.implies (o.literal l a))
  | _, _ => none

/-- The clause of an effect whose atom is in the universe. -/
def effectClause? (l : Layout) (o : Occurrence) : Option Clause :=
  match o.rule.role, o.atom with
  | .effect, some a => some (o.implies ((o.literal l a).shift l.size))
  | _, _ => none

/-- The clause of a condition whose atom is not in the universe. -/
def forbiddenClause? (o : Occurrence) : Option Clause :=
  match o.atom with
  | some _ => none
  | none => some o.forbids

/-- The clause of an occurrence that concerns a single step. -/
def universalClause? (l : Layout) (o : Occurrence) : Option Clause :=
  o.preconditionClause? l <|> o.forbiddenClause?

/-- The entry of an occurrence in the support index. -/
def entry? (o : Occurrence) : Option (SupportEntry Supporter) :=
  o.atom.map fun a ↦ ⟨a, !o.rule.condition.negated, o.rule.role, o.supporter⟩

end Occurrence

/-- The support of all the occurrences. -/
def supportOf (occurrences : List Occurrence) : Support Supporter :=
  (occurrences.filterMap Occurrence.entry?).foldl (fun s e ↦ (s.record e).2) .empty

end Encoding

end LiftedPlanning
