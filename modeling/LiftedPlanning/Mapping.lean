import LiftedPlanning.Problem.Basic

/-!
# Mappings and bindings

A condition of an operator usually mentions a few of its parameters only. Its mapping pairs every
parameter that occurs in the condition, in order of declaration, with the first position where it
occurs. A binding gives constants to the parameters of a mapping and to no others; it is all that
has to be chosen to know the atom that the condition stands for.
-/

namespace LiftedPlanning

/-- The parameters of an operator that a condition mentions. -/
structure Mapping where
  operator : OperatorId
  /-- Positions in the condition, each with the position of its parameter in the operator. -/
  pairs : List (Nat × Nat)
  deriving DecidableEq, Repr

/-- A condition mentions a variable that is not a parameter of the operator. -/
structure MappingError where
  parameter : String
  condition : String
  operator : String
  deriving DecidableEq, Repr

instance : Explained MappingError where
  chain e :=
    [s!"variable ?{e.parameter} of condition {e.condition} is not a parameter of operator " ++
      e.operator]

namespace Mapping

/-- The pairs of a condition and an operator. -/
def pairsOf (op : Operator) (c : Condition) : List (Nat × Nat) :=
  op.parameters.zipIdx.filterMap fun (v, slot) ↦ (c.args.idxOf? (.param v)).map (·, slot)

/-- The mapping of a condition whose variables are parameters of the operator. -/
def ofCondition (p : Problem) (id : OperatorId) (op : Operator) (c : Condition) :
    Except MappingError Mapping :=
  match c.vars.find? fun v ↦ (op.position? v).isNone with
  | some v => .error ⟨p.variableName v, p.conditionText c, p.operatorName id⟩
  | none => .ok ⟨id, pairsOf op c⟩

/-- The positions in the operator, in increasing order. -/
def slots (m : Mapping) : List Nat :=
  m.pairs.map (·.2)

def size (m : Mapping) : Nat :=
  m.pairs.length

end Mapping

/-- Constants for some parameter positions of an operator. -/
structure Binding where
  operator : OperatorId
  /-- The bound positions in increasing order, each with its constant. -/
  pairs : List (Nat × ConstantId)
  deriving DecidableEq, Repr

namespace Binding

/-- Binds the positions of a mapping to constants, in order. -/
def ofMapping (m : Mapping) (constants : List ConstantId) : Binding :=
  ⟨m.operator, m.slots.zip constants⟩

/-- Binds the positions of a mapping, if the constants are as many. -/
def ofMapping? (m : Mapping) (constants : List ConstantId) : Option Binding :=
  if m.size = constants.length then some (ofMapping m constants) else none

/-- The bound positions. -/
def slots (b : Binding) : List Nat :=
  b.pairs.map (·.1)

def constants (b : Binding) : List ConstantId :=
  b.pairs.map (·.2)

/-- The constant at a parameter position, if it is bound. -/
def constantAt? (b : Binding) (slot : Nat) : Option ConstantId :=
  b.pairs.lookup slot

/-- The atom of a condition of the operator, if its variables are bound. -/
def ground? (b : Binding) (op : Operator) (c : Condition) : Option GroundAtom :=
  c.groundWith fun v ↦ (op.position? v).bind b.constantAt?

end Binding

end LiftedPlanning
