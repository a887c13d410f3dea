import LiftedPlanning.Problem.Basic

/-!
# Building problems

Every element is entered through an operation that checks it against what was declared before: names
are unique, referenced names exist, conditions fit the signature of their predicate. An operation
that fails leaves nothing behind, since it returns no problem.

An argument fits the declared type of its position if the two types are related in either direction:
a parameter may have a wider type than the position it is used at.
-/

namespace LiftedPlanning

/-- What was being done when an operation on a problem failed. -/
inductive Activity
  | definingType (name : String)
  | definingConstant (name : String)
  | definingPredicate (name : String)
  | definingOperator (name : String)
  | addingPrecondition (operator : String)
  | addingEffect (operator : String)
  | validatingOperator (operator : String)
  | validatingInitialState
  | validatingGoal
  deriving DecidableEq, Repr

def Activity.text : Activity → String
  | .definingType name => s!"while defining type {name}"
  | .definingConstant name => s!"while defining constant {name}"
  | .definingPredicate name => s!"while defining predicate {name}"
  | .definingOperator name => s!"while defining operator {name}"
  | .addingPrecondition operator => s!"while adding a precondition to operator {operator}"
  | .addingEffect operator => s!"while adding an effect to operator {operator}"
  | .validatingOperator operator => s!"while validating operator {operator}"
  | .validatingInitialState => "while validating the initial state"
  | .validatingGoal => "while validating the goal"

inductive ProblemError
  | naming (cause : NameError)
  | hierarchy (cause : HierarchyError)
  | repeatedParameter (name : String)
  | missingParameter (name operator : String)
  | wrongArity (predicate : String) (expected actual : Nat)
  /-- Arguments are counted from 1. -/
  | wrongType (argument : Nat) (predicate expected actual : String)
  | negativeInitialAtom
  | openInitialAtom
  | openGoal
  | foreignVariable (name condition : String)
  /-- A handle that this problem has not issued. -/
  | unknownHandle
  | during (activity : Activity) (cause : ProblemError)
  deriving DecidableEq, Repr

namespace ProblemError

/-- The wording of the failures; what was being done comes before its failure. -/
def chain : ProblemError → List String
  | .naming cause => Explained.chain cause
  | .hierarchy cause => Explained.chain cause
  | .repeatedParameter name => [s!"parameter {name} is defined twice"]
  | .missingParameter name operator => [s!"no parameter {name} in operator {operator}"]
  | .wrongArity predicate expected actual =>
    [s!"predicate {predicate} expects {expected} argument(s), got {actual}"]
  | .wrongType argument predicate expected actual =>
    [s!"argument {argument} of predicate {predicate} must be of type {expected}, " ++
      s!"got type {actual}"]
  | .negativeInitialAtom => ["initial state cannot contain negative atoms"]
  | .openInitialAtom => ["initial state atoms must be ground"]
  | .openGoal => ["goal conditions must be ground"]
  | .foreignVariable name condition =>
    [s!"variable ?{name} of condition {condition} is not a parameter"]
  | .unknownHandle => ["unknown handle"]
  | .during activity cause => activity.text :: chain cause

instance : Explained ProblemError where
  chain := chain

/-- Whether the failure comes down to a handle that the problem has not issued. -/
def isUnknownHandle : ProblemError → Bool
  | .unknownHandle => true
  | .during _ cause => isUnknownHandle cause
  | _ => false

end ProblemError

namespace Problem

/-! ## Checks of conditions -/

/-- Checks the arguments from position `i` on against the types expected of them. -/
def checkArguments (p : Problem) (predicate : PredicateId) :
    Nat → List Term → List TypeId → Except ProblemError Unit
  | i, t :: ts, expected :: signature =>
    match p.termType? t with
    | none => .error .unknownHandle
    | some actual =>
      if p.types.related expected actual then
        p.checkArguments predicate (i + 1) ts signature
      else
        .error (.wrongType (i + 1) (p.predicateName predicate) (p.typeName expected)
          (p.typeName actual))
  | _, _, _ => .ok ()

/-- Checks a condition against the signature of its predicate. -/
def checkCondition (p : Problem) (c : Condition) : Except ProblemError Unit :=
  match p.signature? c.predicate with
  | none => .error .unknownHandle
  | some signature =>
    if signature.length = c.args.length then
      p.checkArguments c.predicate 0 c.args signature
    else
      .error (.wrongArity (p.predicateName c.predicate) signature.length c.args.length)

/-- Checks the conditions of a formula from left to right. -/
def checkFormula (p : Problem) (f : Formula) : Except ProblemError Unit :=
  f.conditions.forM p.checkCondition

/-! ## Declarations -/

/-- The types of the given names, the first unknown name being the failure. -/
def lookUpTypes (typeOf : String → Except NameError TypeId) (names : List String) :
    Except ProblemError (List TypeId) :=
  names.mapM fun name ↦ (typeOf name).mapError .naming

def typesOf (p : Problem) (names : List String) : Except ProblemError (List TypeId) :=
  lookUpTypes p.types.typeOf names

/-- Declares a type. Its supertypes have to be declared before it. -/
def addType (p : Problem) (name : String) (supertypes : List String) :
    Except ProblemError (TypeId × Problem) := do
  let supertypes ← (p.typesOf supertypes).mapError (.during (.definingType name))
  let types ← (p.types.define name supertypes).mapError .hierarchy
  return (⟨p.types.size⟩, { p with types })

def addConstant (p : Problem) (name type : String) :
    Except ProblemError (ConstantId × Problem) := do
  let t ← (p.types.typeOf type).mapError fun e ↦ .during (.definingConstant name) (.naming e)
  let constants ← (p.constants.insert name t).mapError .naming
  return (⟨p.constants.size⟩, { p with constants })

def addPredicate (p : Problem) (name : String) (signature : List String) :
    Except ProblemError (PredicateId × Problem) := do
  let signature ← (p.typesOf signature).mapError (.during (.definingPredicate name))
  let predicates ← (p.predicates.insert name signature).mapError .naming
  return (⟨p.predicates.size⟩, { p with predicates })

/-- The typed parameters of a declaration, given as names of variables and types; `earlier` holds
the names of the parameters before them. -/
def lookUpParameters (typeOf : String → Except NameError TypeId) :
    List String → List (String × String) → Except ProblemError (List (String × TypeId))
  | _, [] => .ok []
  | earlier, (name, type) :: rest =>
    if name ∈ earlier then
      .error (.repeatedParameter name)
    else do
      let t ← (typeOf type).mapError .naming
      let rest ← lookUpParameters typeOf (earlier ++ [name]) rest
      return (name, t) :: rest

def typedParameters (p : Problem) (earlier : List String) (parameters : List (String × String)) :
    Except ProblemError (List (String × TypeId)) :=
  lookUpParameters p.types.typeOf earlier parameters

/-- Declares an operator that has no precondition and no effect yet. Its parameters become the next
parameters of the problem. -/
def addOperator (p : Problem) (name : String) (parameters : List (String × String)) :
    Except ProblemError (OperatorId × Problem) := do
  let typed ← (p.typedParameters [] parameters).mapError (.during (.definingOperator name))
  let own := (List.range typed.length).map fun i ↦ (⟨p.parameters.length + i⟩ : VariableId)
  let operators ← (p.operators.insert name { parameters := own }).mapError .naming
  return (⟨p.operators.size⟩, { p with operators, parameters := p.parameters ++ typed })

/-- The parameter of a declared operator that has a given name. -/
def variableOf (p : Problem) (op : OperatorId) (name : String) :
    Except ProblemError VariableId :=
  match p.operator? op with
  | none => .error .unknownHandle
  | some schema =>
    match p.parameter? schema name with
    | some v => .ok v
    | none => .error (.missingParameter name (p.operatorName op))

/-- Demands a formula of a declared operator, in a role. -/
def addFormula (p : Problem) (role : Role) (op : OperatorId) (f : Formula) :
    Except ProblemError Problem :=
  match p.operators.name? op.index with
  | none => .error .unknownHandle
  | some name => do
    let activity := match role with
      | .precondition => Activity.addingPrecondition name
      | .effect => Activity.addingEffect name
    (p.checkFormula f).mapError (.during activity)
    let extend (schema : Operator) : Operator := match role with
      | .precondition => { schema with precondition := schema.precondition.and f }
      | .effect => { schema with effect := schema.effect.and f }
    return { p with operators := p.operators.update op.index extend }

/-- Demands a formula before an operator is executed. -/
def addPrecondition (p : Problem) (op : OperatorId) (f : Formula) : Except ProblemError Problem :=
  p.addFormula .precondition op f

/-- Lets an operator bring about a formula. -/
def addEffect (p : Problem) (op : OperatorId) (f : Formula) : Except ProblemError Problem :=
  p.addFormula .effect op f

/-- Makes an atom hold initially; tells whether it did not already. -/
def addInitialAtom (p : Problem) (c : Condition) : Except ProblemError (Bool × Problem) := do
  p.checkCondition c
  if c.negated then
    throw .negativeInitialAtom
  match c.groundAtom? with
  | none => throw .openInitialAtom
  | some a =>
    if a ∈ p.init then
      return (false, p)
    else
      return (true, { p with init := p.init ++ [a] })

/-- Demands a ground condition at the end. -/
def addGoal (p : Problem) (c : Condition) : Except ProblemError Problem := do
  p.checkCondition c
  if c.isGround then
    return { p with goal := p.goal ++ [c] }
  else
    throw .openGoal

end Problem

end LiftedPlanning
