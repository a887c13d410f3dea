import LiftedPlanning.Grounding.Basic

/-!
# Eligible constants

For every operator and every parameter position, the constants that may be bound there, in
increasing order of their handles. They are either all the constants of a fitting type, or only
those that some known action binds there. A position may be left without any constant: its operator
can then never be used.
-/

namespace LiftedPlanning

/-- The eligible constants by operator and parameter position. -/
structure Eligibility where
  sets : List (List (List ConstantId))

namespace Eligibility

/-- Makes a constant eligible where its type is the type of the parameter or one of its subtypes. -/
def byType (p : Problem) : Eligibility where
  sets := p.operators.values.map fun op ↦ op.parameters.map fun v ↦
    p.constantIds.filter fun c ↦
      match p.variableType? v, p.constantType? c with
      | some expected, some actual => p.types.isSupertype expected actual
      | _, _ => false

/-- Makes a constant eligible where some action of the grounding binds it. -/
def byReachability (p : Problem) (g : Grounding) : Eligibility where
  sets := p.namedOperators.map fun (id, _, op) ↦
    let actions := g.actions.filter fun a ↦ a.operator = id
    (List.range op.arity).map fun position ↦
      p.constantIds.filter fun c ↦ actions.any fun a ↦ a.args[position]? == some c

/-- The sets of an operator, by position. -/
def setsOf (e : Eligibility) (op : OperatorId) : List (List ConstantId) :=
  (e.sets[op.index]?).getD []

def eligible (e : Eligibility) (op : OperatorId) (position : Nat) : List ConstantId :=
  ((e.setsOf op)[position]?).getD []

/-- The constants eligible at a position, if the operator and the position exist. -/
def eligible? (e : Eligibility) (op : OperatorId) (position : Nat) : Option (List ConstantId) :=
  (e.sets[op.index]?).bind (·[position]?)

/-- The place of a constant among those eligible at a position. -/
def place? (e : Eligibility) (op : OperatorId) (position : Nat) (c : ConstantId) : Option Nat :=
  (e.eligible op position).idxOf? c

def arity (e : Eligibility) (op : OperatorId) : Nat :=
  (e.setsOf op).length

/-- Whether every position of an operator has an eligible constant. -/
def isSelectable (e : Eligibility) (op : OperatorId) : Bool :=
  (e.setsOf op).all fun set ↦ !set.isEmpty

end Eligibility

end LiftedPlanning
