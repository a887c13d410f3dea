import LiftedPlanning.Handle

/-!
# Conditions and atoms

A condition is a predicate applied to terms, with a sign. An atom is a predicate applied to
constants only. Binding the variables of a condition gives an atom; the sign is not part of it.
-/

namespace LiftedPlanning

/-- An argument: a constant, or a parameter of the operator that the condition belongs to. -/
inductive Term
  | const (c : ConstantId)
  | param (v : VariableId)
  deriving DecidableEq, Repr

def Term.variable? : Term → Option VariableId
  | .const _ => none
  | .param v => some v

/-- The constant that a term stands for under a binding of the variables. -/
def Term.bind? (binding : VariableId → Option ConstantId) : Term → Option ConstantId
  | .const c => some c
  | .param v => binding v

structure GroundAtom where
  predicate : PredicateId
  args : List ConstantId
  deriving DecidableEq, Repr

/-- A predicate applied to terms, possibly negated. -/
structure Condition where
  predicate : PredicateId
  args : List Term
  negated : Bool := false
  deriving DecidableEq, Repr

namespace Condition

/-- The condition that demands an atom. -/
def positive (predicate : PredicateId) (args : List Term) : Condition :=
  ⟨predicate, args, false⟩

/-- The condition that forbids an atom. -/
def negative (predicate : PredicateId) (args : List Term) : Condition :=
  ⟨predicate, args, true⟩

def negate (c : Condition) : Condition :=
  { c with negated := !c.negated }

/-- Equality up to the sign. -/
def sameAtom (c d : Condition) : Bool :=
  c.predicate = d.predicate && c.args = d.args

/-- The variables in argument order, as often as they occur. -/
def vars (c : Condition) : List VariableId :=
  c.args.filterMap Term.variable?

def isGround (c : Condition) : Bool :=
  c.vars.isEmpty

/-- The atom of the condition under a binding, if the binding covers its variables. -/
def groundWith (c : Condition) (binding : VariableId → Option ConstantId) : Option GroundAtom :=
  (c.args.mapM (Term.bind? binding)).map (⟨c.predicate, ·⟩)

def groundAtom? (c : Condition) : Option GroundAtom :=
  c.groundWith fun _ ↦ none

end Condition

def GroundAtom.toCondition (a : GroundAtom) : Condition :=
  .positive a.predicate (a.args.map .const)

end LiftedPlanning
