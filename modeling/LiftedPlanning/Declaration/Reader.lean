import LiftedPlanning.Declaration.Lexeme
import LiftedPlanning.Problem.Construction

/-!
# Reading problems

A problem file holds one declaration a line; a percent sign starts a comment. Declarations are
entered into the problem in order, so names are declared before they are used:

* `type(city, loc)` a type and its supertypes,
* `const(a, b, loc)` constants and their type,
* `pred(at, loc)` a predicate and the types of its arguments,
* `op(move, ?from:loc, ?to:loc)` an operator and its parameters,
* `pre(move, at(?from) | at(a))` and `eff(move, -at(?from))` what an operator demands and does,
* `init(at(a))` and `goal(at(b))` the initial state and the goal.

The first line that fails ends the reading. An initial atom that was declared before only causes a
warning.
-/

namespace LiftedPlanning.Declaration

open Text

inductive LineError
  | notText
  | malformed (line : String)
  | unknownKeyword (keyword : String)
  | missingTypeName
  | missingConstantType
  | missingPredicateName
  | missingOperatorName
  | missingCondition
  | badName (text : String)
  | badParameter (text : String)
  | badLiteral (text : String)
  | misplacedVariable (text : String)
  | problem (cause : ProblemError)
  deriving DecidableEq, Repr

instance : Explained LineError where
  chain
    | .notText => ["stream did not contain valid UTF-8"]
    | .malformed line => [s!"syntax error in \"{line}\""]
    | .unknownKeyword keyword => [s!"unknown declaration \"{keyword}\""]
    | .missingTypeName => ["missing type name"]
    | .missingConstantType => ["expected at least a constant name and a type name"]
    | .missingPredicateName => ["missing predicate name"]
    | .missingOperatorName => ["missing operator name"]
    | .missingCondition => ["expected an operator name and a condition"]
    | .badName text => [s!"invalid name \"{text}\""]
    | .badParameter text => [s!"invalid parameter \"{text}\""]
    | .badLiteral text => [s!"invalid literal \"{text}\""]
    | .misplacedVariable text => [s!"variable {text} is not allowed here"]
    | .problem cause => Explained.chain cause

/-- What is wrong with a file: the first line, counted from 1, that fails. -/
structure ReadError where
  line : Nat
  cause : LineError
  deriving DecidableEq, Repr

instance : Explained ReadError where
  chain e := s!"while reading line {e.line}" :: Explained.chain e.cause

/-- A remark on a line that was read nevertheless. -/
structure Warning where
  line : Nat
  text : String
  deriving DecidableEq, Repr

/-! ## Pieces of declarations -/

def readName (text : List Char) : Except LineError String :=
  if isName text then .ok (String.ofList text) else .error (.badName (String.ofList text))

def readNames (body : List Char) : Except LineError (List String) :=
  (arguments body).mapM readName

/-- The variable and the type of a parameter. -/
def readParameter (text : List Char) : Except LineError (String × String) :=
  match parameterShape? text with
  | some (name, type) => .ok (String.ofList name, String.ofList type)
  | none => .error (.badParameter (String.ofList text))

/-- Reads an argument of a literal. A variable is looked up among the parameters of the operator
that the literal belongs to, if there is one. -/
def readTerm (p : Problem) (scope : Option OperatorId) (text : List Char) :
    Except LineError Term :=
  match variableName? text, scope with
  | some name, some op =>
    ((p.variableOf op (String.ofList name)).map .param).mapError .problem
  | some _, none => .error (.misplacedVariable (String.ofList text))
  | none, _ => do
    let name ← readName text
    ((p.constantOf name).map .const).mapError fun e ↦ .problem (.naming e)

/-- Reads a literal; its predicate is looked up before its arguments are. -/
def readLiteral (p : Problem) (scope : Option OperatorId) (text : List Char) :
    Except LineError Condition :=
  match literalShape? text with
  | none => .error (.badLiteral (String.ofList text))
  | some shape => do
    let predicate ← (p.predicateOf (String.ofList shape.predicate)).mapError
      fun e ↦ LineError.problem (.naming e)
    let args ← (arguments shape.body).mapM (readTerm p scope)
    return ⟨predicate, args, shape.negated⟩

/-- Reads literals separated by bars. A single literal is no disjunction. -/
def readFormula (p : Problem) (scope : OperatorId) (text : List Char) :
    Except LineError Formula := do
  let literals ← (fields '|' text).mapM fun field ↦ readLiteral p (some scope) (trim field)
  match literals with
  | [c] => return .literal c
  | cs => return .disj (cs.map .literal)

/-! ## Declarations -/

/-- Declares constants of one type, one after the other. -/
def declareConstants (p : Problem) (type : String) : List String → Except LineError Problem
  | [] => .ok p
  | name :: rest => do
    let (_, p) ← (p.addConstant name type).mapError .problem
    declareConstants p type rest

/-- Reads the declaration of a precondition or an effect. -/
def declareFormula (p : Problem) (role : Role) (body : List Char) : Except LineError Problem :=
  match splitAtComma? body with
  | none => .error .missingCondition
  | some (name, formula) => do
    let op ← (p.operatorOf (String.ofList (trim name))).mapError
      fun e ↦ LineError.problem (.naming e)
    let f ← readFormula p op (trim formula)
    (p.addFormula role op f).mapError .problem

/-- Enters a declaration into a problem; there may be a remark on it. -/
def declare (p : Problem) (shape : Shape) : Except LineError (Problem × Option String) := do
  match String.ofList shape.keyword with
  | "type" =>
    match ← readNames shape.body with
    | [] => throw .missingTypeName
    | name :: supertypes =>
      let (_, p) ← (p.addType name supertypes).mapError .problem
      return (p, none)
  | "const" =>
    match (← readNames shape.body).reverse with
    | type :: name :: names =>
      return (← declareConstants p type (name :: names).reverse, none)
    | _ => throw .missingConstantType
  | "pred" =>
    match ← readNames shape.body with
    | [] => throw .missingPredicateName
    | name :: signature =>
      let (_, p) ← (p.addPredicate name signature).mapError .problem
      return (p, none)
  | "op" =>
    match arguments shape.body with
    | [] => throw .missingOperatorName
    | name :: parameters =>
      let parameters ← parameters.mapM readParameter
      let name ← readName name
      let (_, p) ← (p.addOperator name parameters).mapError .problem
      return (p, none)
  | "pre" => return (← declareFormula p .precondition shape.body, none)
  | "eff" => return (← declareFormula p .effect shape.body, none)
  | "init" =>
    let c ← readLiteral p none (trim shape.body)
    let (fresh, q) ← (p.addInitialAtom c).mapError .problem
    if fresh then
      return (q, none)
    else
      return (q, some s!"initial atom {p.conditionText c} is defined twice")
  | "goal" =>
    let c ← readLiteral p none (trim shape.body)
    return (← (p.addGoal c).mapError .problem, none)
  | keyword => throw (.unknownKeyword keyword)

/-! ## Files -/

/-- What a line declares: the text before a comment, without the blanks around it. -/
def content (line : List Char) : List Char :=
  trim (line.takeWhile (· ≠ '%'))

/-- Enters a line into a problem. -/
def readLine (p : Problem) (line : Option (List Char)) :
    Except LineError (Problem × Option String) :=
  match line with
  | none => .error .notText
  | some line =>
    match content line with
    | [] => .ok (p, none)
    | text =>
      match shape? text with
      | none => .error (.malformed (String.ofList text))
      | some shape => declare p shape

/-- The outcome of reading a file; warnings are raised up to the line that fails. -/
structure Reading where
  warnings : List Warning
  problem : Except ReadError Problem

/-- Reads lines into a problem, the first of them being line `n`. -/
def readLines (p : Problem) : Nat → List (Option (List Char)) → Reading
  | _, [] => ⟨[], .ok p⟩
  | n, line :: rest =>
    match readLine p line with
    | .error cause => ⟨[], .error ⟨n, cause⟩⟩
    | .ok (p, remark) =>
      let reading := readLines p (n + 1) rest
      { reading with warnings := (remark.map (⟨n, ·⟩)).toList ++ reading.warnings }

/-- Reads a problem from the bytes of its file. -/
def read (bytes : List UInt8) : Reading :=
  readLines .empty 1 (storedLines bytes)

end LiftedPlanning.Declaration
