import LiftedPlanning.CommandLine.Command
import LiftedPlanning.CommandLine.Host
import LiftedPlanning.Declaration.Reader
import LiftedPlanning.Grounding.Relaxed
import LiftedPlanning.Plan.Check
import LiftedPlanning.Problem.Validation
import LiftedPlanning.Cnf.Answer
import LiftedPlanning.Cnf.LeastModel
import LiftedPlanning.Search.Basic
import LiftedPlanning.Search.Limits

/-!
# Running commands

What a command does, in terms of a host. The host decides how files, programs, the clock and the
two output channels are reached; everything else, all the messages included, is decided here.
-/

namespace LiftedPlanning.CommandLine

open Cnf (Literal Store Verdict)
open Text (Binary64)

def programText : String := "liftsat 0.1.0"

def authorsText : String := "The liftsat developers"

/-! ## Failures -/

/-- Why a command fails: a chain of texts. -/
structure Failure where
  chain : List String
  deriving DecidableEq, Repr

instance : Explained Failure where
  chain := Failure.chain

/-- The failure of a part of the library. -/
def Failure.of {ε : Type} [Explained ε] (e : ε) : Failure :=
  ⟨Explained.chain e⟩

/-- The outcome of an action of a command. -/
abbrev Attempt (m : Type → Type) (α : Type) := ExceptT Failure m α

variable {m : Type → Type} [Monad m]

/-- Turns a failure of the library into a failure of the command. -/
def attempt {ε α : Type} [Explained ε] (x : Except ε α) : Attempt m α :=
  match x with
  | .ok a => pure a
  | .error e => throw (.of e)

/-- Turns a failure of the host, while doing something, into a failure of the command. -/
def attemptWhile {α : Type} (activity : String) (x : Except FileError α) : Attempt m α :=
  match x with
  | .ok a => pure a
  | .error cause => throw ⟨[activity, cause.text]⟩

/-- What is being done when a file is opened. -/
def openingFile (path : String) : String :=
  s!"while opening file \"{path}\""

/-! ## Reading, grounding and encoding -/

/-- How many constants are eligible at each position of an operator. -/
def eligibilityText (kind name : String) (sets : List (List ConstantId)) : String :=
  let sizes := ", ".intercalate (sets.map fun set ↦ toString set.length)
  s!"{kind} eligible constants for {name}: [{sizes}]"

def reportEligibility (host : Host m) (kind : String) (p : Problem) (e : Eligibility) :
    Attempt m Unit :=
  p.namedOperators.forM fun (id, name, _) ↦
    host.log .debug (eligibilityText kind name (e.setsOf id))

def problemText (p : Problem) : String :=
  let constants := p.constants.size
  let predicates := p.predicates.size
  let operators := p.operators.size
  let atoms := p.init.length
  let conditions := p.goal.length
  s!"the problem has {constants} constant(s), {predicates} predicate(s), " ++
  s!"{operators} operator(s), {atoms} initial atom(s) and {conditions} goal condition(s)"

/-- What is being done when a file cannot be read: a directory can be opened, so it fails like a bad
first line. -/
def unreadableActivity (path : String) : FileError → String
  | .isDirectory => "while reading line 1"
  | _ => openingFile path

/-- Reads and validates the problem of a file. -/
def readProblem (host : Host m) (path : String) : Attempt m Problem := do
  discard <| attemptWhile (openingFile path) (← host.locate path)
  let reading ← match ← host.fetch path with
    | .ok content => pure (Declaration.read content)
    | .error cause => throw ⟨[unreadableActivity path cause, cause.text]⟩
  reading.warnings.forM fun w ↦ host.log .warn s!"at line {w.line}: {w.text}"
  let p ← attempt reading.problem
  attempt p.validate
  host.log .info (problemText p)
  return p

def groundProblem (host : Host m) (p : Problem) : Attempt m Grounding := do
  let operators := p.namedOperators.mapM fun (id, name, op) ↦ FlatOperator.ofOperator p id name op
  discard <| attempt operators
  reportEligibility host "type-based" p (.byType p)
  let relaxed ← attempt (RelaxedGrounding.ofProblem p)
  let g := relaxed.grounding
  let rounds := relaxed.rounds
  let atoms := g.atoms.length
  let actions := g.actions.length
  host.log .debug s!"relaxed reachability fixpoint reached after {rounds} round(s)"
  host.log .info s!"relaxed grounding: {atoms} reachable atom(s), {actions} reachable action(s)"
  host.log .info s!"relaxed reachability found {atoms} atom(s) and {actions} action(s)"
  return g

/-- The strategy that the options ask for. -/
def readStrategy (host : Host m) (found : Matches) : Attempt m Strategy := do
  let strategy ← attempt <| Strategy.ofTexts ((found.value? .strategy).getD "")
    ((found.value? .eligibility).getD "")
  host.log .info s!"using the {strategy.text} encoding strategy"
  return strategy

def encodeProblem (host : Host m) (p : Problem) (g : Grounding) (strategy : Strategy) :
    Attempt m Encoding := do
  let kind := match strategy.eligibility with
    | .lifted => "type-based"
    | .grounded => "reachability-based"
  reportEligibility host kind p (Encoding.eligibility p g strategy.eligibility)
  let e ← attempt (Encoding.ofProblem p g strategy)
  host.log .info s!"encoding ({strategy.text}): {e.statistics.text}"
  return e

/-! ## Limits -/

/-- Why a number of seconds is no time. -/
inductive DurationError
  | negative
  | tooBig
  deriving DecidableEq, Repr

def DurationError.text : DurationError → String
  | .negative => "cannot convert float seconds to Duration: value is negative"
  | .tooBig => "cannot convert float seconds to Duration: value is either too big or NaN"

/-- The nanoseconds of a number of seconds, to the nearest one. -/
def nanoseconds (x : Binary64) : Except DurationError Nat :=
  if x.isNegative then
    .error .negative
  else
    match x.magnitude? with
    | none => .error .tooBig
    | some (num, den) =>
      if num < wordCount * den then
        .ok (Text.roundHalfEven (num * nanosPerSecond) den)
      else
        .error .tooBig

/-- A limit in seconds, if the option was given. -/
def readSeconds (found : Matches) (key : Key) (name : String) : Except Failure (Option Nat) :=
  match found.value? key with
  | none => .ok none
  | some value =>
    match Binary64.ofText? value.toList with
    | none => .error ⟨[s!"while parsing the value \"{value}\"", "invalid float literal"]⟩
    | some x =>
      match nanoseconds x with
      | .ok n => .ok (some n)
      | .error cause => .error ⟨[s!"invalid duration for {name}: {x.text}", cause.text]⟩

def readNumber (found : Matches) (key : Key) : Except Failure (Option Nat) :=
  match found.value? key with
  | none => .ok none
  | some value =>
    match Text.readWord value.toList with
    | .ok n => .ok (some n)
    | .error cause =>
      .error ⟨s!"while parsing the value \"{value}\"" :: Explained.chain cause⟩

/-- The limits that the options ask for; both times run from the given moment. -/
def readLimits (host : Host m) (found : Matches) (start : Nat) : Attempt m SearchLimits := do
  if [Key.maxSteps, .maxSearchTime, .maxTotalTime].all fun key ↦ !found.isGiven key then
    host.log .warn ("no step or time limit given; " ++
      "the search will not end if the problem is unsolvable")
  let maxSteps ← attempt (readNumber found .maxSteps)
  let maxSearchTime ← attempt (readSeconds found .maxSearchTime "--max-search-time")
  let maxTotalTime ← attempt (readSeconds found .maxTotalTime "--max-total-time")
  return { maxSteps, maxSearchTime, maxTotalTime, searchStart := start, totalStart := start }

/-! ## Solvers -/

/-- A solver of a host: it decides the clauses of a store under assumptions. -/
abbrev Decider (m : Type → Type) := Store → List Literal → m Verdict

/-- The status that a verdict is reported as. -/
def verdictText : Verdict → String
  | .satisfiable _ => "SAT"
  | .unsatisfiable => "UNSAT"
  | .unknown => "UNKNOWN"

/-- The solver that is a program of the host. A program that fails answers nothing. -/
def externalSolver (host : Host m) (program : String) (options : List String) : Decider m :=
  fun s assumptions ↦ do
    let clauses := (s.instanceClauses assumptions).length
    host.log .info (s!"launching SAT solver on an instance with {s.varCount} variables and " ++
      s!"{clauses} clauses")
    let output ← match ← host.execute program options (s.dimacs assumptions) with
      | .ok output => pure output
      | .error cause => do
        let reason := cause.text
        host.log .error s!"while executing the external SAT solver \"{program}\": {reason}"
        pure []
    let verdict ← match Cnf.Answer.read s.varCount output with
      | .ok verdict => pure verdict
      | .error e => do
        host.log .error (explain e)
        pure .unknown
    host.log .info s!"SAT solver ended with result {verdictText verdict}"
    return verdict

/-- The solver that the options ask for. -/
def readSolver (host : Host m) (found : Matches) : Attempt m (Decider m) := do
  match found.value? .solver with
  | some path =>
    let program ← attemptWhile (openingFile path) (← host.locate path)
    host.log .info s!"using \"{program}\" as SAT solver"
    return externalSolver host program (found.valuesOf .solverOption)
  | none =>
    host.log .info "using the default SAT solver"
    return fun s assumptions ↦ pure (Cnf.LeastModel.solve s assumptions)

/-! ## Commands -/

/-- The importance of what happens in a search. -/
def eventLevel : SearchEvent → Level
  | .looking _ => .info
  | .found _ _ => .info
  | .noPlan _ => .debug
  | .unrolled _ _ => .debug

/-- The tools of a search on a host. -/
def searchTools (host : Host m) (solver : Decider m) (limits : SearchLimits) : SearchTools m where
  decide := solver
  allows steps := do
    match limits.exceeded? false (← host.now) steps with
    | none => return true
    | some reason =>
      host.log .info reason.text
      return false
  report event := host.log (eventLevel event) event.text

def runAuthors (host : Host m) : Attempt m Unit := do
  host.print (programText ++ "\n" ++ authorsText ++ "\n")

def inputPath (found : Matches) : String :=
  (found.value? .input).getD ""

/-- Checks that a problem can be read, is valid and can be grounded. -/
def runCheck (host : Host m) (found : Matches) : Attempt m Unit := do
  let p ← readProblem host (inputPath found)
  discard <| groundProblem host p
  host.log .info "the problem file is valid"

/-- Searches a plan and prints it, or says that there is none within the limits. -/
def runSolve (host : Host m) (found : Matches) : Attempt m Unit := do
  let start ← host.now
  let p ← readProblem host (inputPath found)
  let g ← groundProblem host p
  let strategy ← readStrategy host found
  let limits ← readLimits host found start
  let solver ← readSolver host found
  let e ← encodeProblem host p g strategy
  let search : m (Option (Except SearchError PlanningResult)) :=
    Search.ofEncoding (searchTools host solver limits) g e
  match ← search with
  | none => throw ⟨["the horizon is out of range"]⟩
  | some (.error cause) => throw (.of cause)
  | some (.ok result) =>
    match result with
    | .plan plan =>
      if found.isGiven .checkPlan then
        match plan.check p with
        | .error cause => throw ⟨"while checking the plan" :: Explained.chain cause⟩
        | .ok () => host.log .info "the plan is valid"
    | .boundReached steps => host.log .info s!"no plan found with up to {steps} step(s)"
    host.print result.text

/-- The number of steps that the options ask for. -/
def readSteps (found : Matches) : Except Failure Nat :=
  let value := (found.value? .steps).getD ""
  match Text.readWord value.toList with
  | .ok n => .ok n
  | .error cause =>
    .error ⟨s!"while parsing the number of steps \"{value}\"" :: Explained.chain cause⟩

/-- The formula of a number of steps, with its goal, as the text of an instance. -/
def writtenFormula (strategy : Strategy) (e : Encoding) (steps : Nat) : Unrolling × String :=
  let store := ((Store.empty.addComment s!"strategy {strategy.text}").addComment
    s!"steps {steps}").addComment e.statistics.text
  let start := Unrolling.start e.formula store
  let u := (List.range steps).foldl (fun u _ ↦ Unrolling.extend e.formula u) start
  let goal := u.goal e.formula
  let u := { u with store := u.store.assume goal }
  (u, u.store.dimacs goal)

/-- Writes the formula of a problem to a file, or prints it. -/
def runEncode (host : Host m) (found : Matches) : Attempt m Unit := do
  let steps ← attempt (readSteps found)
  let p ← readProblem host (inputPath found)
  let g ← groundProblem host p
  let strategy ← readStrategy host found
  let e ← encodeProblem host p g strategy
  let (u, text) := writtenFormula strategy e steps
  (List.range steps).forM fun k ↦ do
    let event := SearchEvent.unrolled (k + 1) ((k + 2) * e.formula.stepSize)
    host.log (eventLevel event) event.text
  host.log .info s!"the formula for {steps} step(s) has {u.store.varCount} variables"
  match found.value? .output with
  | some path =>
    attemptWhile s!"while writing file \"{path}\"" (← host.save path text)
  | none => host.print text

/-- How a command line ends. -/
inductive Ending
  | success
  | failure
  /-- Help was asked for. -/
  | help
  /-- The command line makes no sense. -/
  | misuse
  deriving DecidableEq, Repr

def Ending.code : Ending → UInt32
  | .success => 0
  | .failure => 1
  | .help => 0
  | .misuse => 1

def runCommand (host : Host m) (command : Command) (found : Matches) : Attempt m Unit :=
  match command with
  | .authors => runAuthors host
  | .check => runCheck host found
  | .encode => runEncode host found
  | .solve => runSolve host found

/-- Reports a failure: its outermost text, then what it was caused by. -/
def reportFailure (host : Host m) (f : Failure) : m Unit := do
  match f.chain with
  | [] => pure ()
  | outermost :: causes =>
    host.log .error s!"an error occurred: {outermost}"
    causes.forM fun cause ↦ host.log .error s!"caused by: {cause}"

def usageText : String :=
  "usage: authors\n" ++
  "       check -f FILE\n" ++
  "       solve -f FILE [--strategy NAME] [--eligibility NAME] [--max-steps N]\n" ++
  "         [--max-search-time SECONDS] [--max-total-time SECONDS] [--check-plan]\n" ++
  "         [--external-sat-solver PROGRAM] [--external-sat-solver-opt OPTION]\n" ++
  "       encode-to-sat -f FILE --steps N [--strategy NAME] [--eligibility NAME] [-o FILE]\n" ++
  "every command takes --logging-level LEVEL"

def run (host : Host m) (arguments : List String) : m Ending := do
  match parseCommand arguments with
  | .error .help =>
    host.log .info usageText
    return .help
  | .error .misuse =>
    host.log .error usageText
    return .misuse
  | .ok (command, found) =>
    let host := host.filtered found.threshold
    host.log .info programText
    match ← (runCommand host command found).run with
    | .ok () => return .success
    | .error f =>
      reportFailure host f
      return .failure

end LiftedPlanning.CommandLine
