import LiftedPlanning.Formula
import LiftedPlanning.TypeHierarchy

/-!
# Planning problems

A problem declares types, constants, predicates and operators, and gives an initial state and a
goal. The initial state is a list of atoms, all others being false at the start; the goal is a
conjunction of signed atoms. Nothing here checks a problem: see `Problem.Construction` for the
operations that build one and `Problem.Validation` for the check of a whole problem.
-/

namespace LiftedPlanning

/-- An action schema. Its parameters are variables of the problem that no other operator has. -/
structure Operator where
  parameters : List VariableId
  precondition : Formula := .truth
  effect : Formula := .truth

namespace Operator

def arity (op : Operator) : Nat :=
  op.parameters.length

/-- The position of a variable among the parameters. -/
def position? (op : Operator) (v : VariableId) : Option Nat :=
  op.parameters.idxOf? v

/-- The constant that a full list of arguments gives to a variable. -/
def argument? (op : Operator) (args : List ConstantId) (v : VariableId) : Option ConstantId :=
  (op.position? v).bind (args[·]?)

end Operator

/-- The role of a condition in its operator. -/
inductive Role
  | precondition
  | effect
  deriving DecidableEq, Repr

def Role.text : Role → String
  | .precondition => "precondition"
  | .effect => "effect"

def Operator.formula (op : Operator) : Role → Formula
  | .precondition => op.precondition
  | .effect => op.effect

structure Problem where
  types : TypeHierarchy := .empty
  /-- The constants, each with its type. -/
  constants : Catalog TypeId := { kind := "constant" }
  /-- The predicates, each with the types of its arguments. -/
  predicates : Catalog (List TypeId) := { kind := "predicate" }
  /-- The parameters of all operators, one operator after the other, with their types. -/
  parameters : List (String × TypeId) := []
  operators : Catalog Operator := { kind := "operator" }
  /-- The atoms that hold initially, without repetition. -/
  init : List GroundAtom := []
  goal : List Condition := []

namespace Problem

def empty : Problem := {}

instance : Inhabited Problem := ⟨empty⟩

/-! ## Look-ups by name -/

def constantOf (p : Problem) (name : String) : Except NameError ConstantId :=
  (p.constants.find name).map Handle.mk

def predicateOf (p : Problem) (name : String) : Except NameError PredicateId :=
  (p.predicates.find name).map Handle.mk

def operatorOf (p : Problem) (name : String) : Except NameError OperatorId :=
  (p.operators.find name).map Handle.mk

/-! ## Look-ups by handle -/

def operator? (p : Problem) (op : OperatorId) : Option Operator :=
  p.operators.value? op.index

/-- The types of the arguments of a predicate. -/
def signature? (p : Problem) (q : PredicateId) : Option (List TypeId) :=
  p.predicates.value? q.index

/-- The type that a constant was declared with. -/
def constantType? (p : Problem) (c : ConstantId) : Option TypeId :=
  p.constants.value? c.index

/-- The type that a parameter was declared with. -/
def variableType? (p : Problem) (v : VariableId) : Option TypeId :=
  (p.parameters[v.index]?).map (·.2)

/-- The type of what a term stands for. -/
def termType? (p : Problem) : Term → Option TypeId
  | .const c => p.constantType? c
  | .param v => p.variableType? v

/-- The operators with their names and handles, in order of declaration. -/
def namedOperators (p : Problem) : List (OperatorId × String × Operator) :=
  p.operators.entries.zipIdx.map fun (entry, i) ↦ (⟨i⟩, entry)

def constantIds (p : Problem) : List ConstantId :=
  Handle.first p.constants.size

/-- The parameter of an operator that has a given name. -/
def parameter? (p : Problem) (op : Operator) (name : String) : Option VariableId :=
  op.parameters.find? fun v ↦ (p.parameters[v.index]?).map (·.1) == some name

/-! ## Texts -/

/-- The name of a type; the texts below are only read for handles of the problem. -/
def typeName (p : Problem) (t : TypeId) : String :=
  p.types.typeName t

def constantName (p : Problem) (c : ConstantId) : String :=
  (p.constants.name? c.index).getD ""

def predicateName (p : Problem) (q : PredicateId) : String :=
  (p.predicates.name? q.index).getD ""

def operatorName (p : Problem) (op : OperatorId) : String :=
  (p.operators.name? op.index).getD ""

/-- The name of a parameter, without the question mark. -/
def variableName (p : Problem) (v : VariableId) : String :=
  ((p.parameters[v.index]?).map (·.1)).getD ""

/-- A constant reads as its name, a variable as its name after a question mark. -/
def termText (p : Problem) : Term → String
  | .const c => p.constantName c
  | .param v => "?" ++ p.variableName v

/-- A name applied to arguments, like `at(a, b)`; the parentheses are always there. -/
def applied (name : String) (args : List String) : String :=
  name ++ "(" ++ ", ".intercalate args ++ ")"

/-- An atom reads as its predicate applied to the names of its constants. -/
def atomText (p : Problem) (a : GroundAtom) : String :=
  applied (p.predicateName a.predicate) (a.args.map p.constantName)

/-- A condition reads as its atom, after a minus if it is negated: `-at(?from)`. -/
def conditionText (p : Problem) (c : Condition) : String :=
  (if c.negated then "-" else "") ++
    applied (p.predicateName c.predicate) (c.args.map p.termText)

/-- Whether the predicate and all the arguments of a condition were declared in the problem. -/
def declares (p : Problem) (c : Condition) : Bool :=
  (p.signature? c.predicate).isSome && c.args.all fun t ↦ (p.termType? t).isSome

/-- The text of a condition all of which was declared. -/
def conditionText? (p : Problem) (c : Condition) : Option String :=
  if p.declares c then some (p.conditionText c) else none

end Problem

end LiftedPlanning
