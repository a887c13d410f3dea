import LiftedPlanning.CommandLine.Options

/-!
# Commands

The program has four commands: it shows its authors, checks a problem file, solves a problem, and
writes the formula of a problem. A command line names a command and gives its options.
-/

namespace LiftedPlanning.CommandLine

/-- The commands. -/
inductive Command
  | authors
  | check
  | encode
  | solve
  deriving DecidableEq, Repr

namespace Command

def name : Command → String
  | .authors => "authors"
  | .check => "check"
  | .encode => "encode-to-sat"
  | .solve => "solve"

/-- The commands in alphabetical order. -/
def all : List Command :=
  [.authors, .check, .encode, .solve]

def ofName? (name : String) : Option Command :=
  all.find? (·.name == name)

end Command

/-! ## Options of the commands -/

/-- The threshold of the messages; an empty value is refused as no level. -/
def loggingOption : OptionSpec where
  key := .logging
  long := "logging-level"
  allowsEmpty := true
  values := Threshold.names.map (·.1)
  standard := "info"

def inputOption : OptionSpec where
  key := .input
  short := 'f'
  isRequired := true

/-- The two parts of a strategy. -/
def strategyOptions : List OptionSpec :=
  [{ key := .strategy, long := "strategy", values := ["sequential", "parallel"],
      standard := "parallel" },
    { key := .eligibility, long := "eligibility", values := ["lifted", "grounded"],
      standard := "lifted" }]

def limitOptions : List OptionSpec :=
  [{ key := .maxSteps, long := "max-steps" },
    { key := .maxSearchTime, long := "max-search-time" },
    { key := .maxTotalTime, long := "max-total-time" }]

/-- An external solver, and options to be handed on to it. -/
def solverOptions : List OptionSpec :=
  [{ key := .solver, long := "external-sat-solver" },
    { key := .solverOption, long := "external-sat-solver-opt", isRepeatable := true,
      allowsHyphen := true, needs := some .solver }]

/-- What a command accepts. -/
def Command.options : Command → List OptionSpec
  | .authors => [loggingOption]
  | .check => [inputOption, loggingOption]
  | .encode =>
    inputOption :: strategyOptions ++
      [{ key := .steps, long := "steps", isRequired := true },
        { key := .output, short := 'o', long := "output" }, loggingOption]
  | .solve =>
    inputOption :: strategyOptions ++ limitOptions ++
      [{ key := .checkPlan, long := "check-plan", takesValue := false }] ++ solverOptions ++
      [loggingOption]

/-! ## Command lines -/

/-- Whether the names after a request for help lead to something that there is help for: nothing, a
command, or help itself. -/
def readHelp : List String → Stop
  | [] => .help
  | [name] => if name = "help" || (Command.ofName? name).isSome then .help else .misuse
  | _ => .misuse

def parseCommand : List String → Except Stop (Command × Matches)
  | [] => .error .misuse
  | "help" :: rest => .error (readHelp rest)
  | first :: rest =>
    match Command.ofName? first with
    | some command => (parseOptions command.options rest).map (command, ·)
    | none =>
      match first.toList with
      | '-' :: '-' :: cs => if (splitLong cs).1 = "help" then .error .help else .error .misuse
      | '-' :: 'h' :: _ => .error .help
      | _ => .error .misuse

/-- The threshold that was asked for; messages for users are shown by default. -/
def Matches.threshold (m : Matches) : Threshold :=
  ((m.value? .logging).bind (List.lookup · Threshold.names)).getD (some .info)

end LiftedPlanning.CommandLine
