import LiftedPlanning.CommandLine.Log

/-!
# Command-line options

A command has options, some of which take values. An option is written with its long name, as
`--steps 2` or `--steps=2`, or with its short one, as `-f file`, `-ffile` or `-f=file`; there are no
other arguments. Any number of minuses from two on introduce a long name, and leading equality signs
of a joined value are dropped. The argument after an option that waits for its value is that value
unless it looks like an option, which a few options allow as well.

Reading stops at the first argument that makes no sense or asks for help. Options that were given no
value, or not given at all, then get their standard values, and what was read is checked as a whole:
required options are there, options are not repeated, values are there and admissible.
-/

namespace LiftedPlanning.CommandLine

/-- The options of the commands. -/
inductive Key
  | input
  | strategy
  | eligibility
  | maxSteps
  | maxSearchTime
  | maxTotalTime
  | checkPlan
  | solver
  | solverOption
  | steps
  | output
  | logging
  deriving DecidableEq, Repr

/-- How an option is written and what it accepts. -/
structure OptionSpec where
  key : Key
  short : Option Char := none
  long : Option String := none
  takesValue : Bool := true
  isRequired : Bool := false
  isRepeatable : Bool := false
  /-- Whether a value may be empty. -/
  allowsEmpty : Bool := false
  /-- Whether a value may look like an option. -/
  allowsHyphen : Bool := false
  /-- The admissible values, if there is a choice of them. -/
  values : Option (List String) := none
  /-- The value that counts if none is given. -/
  standard : Option String := none
  /-- An option that has to be given as well. -/
  needs : Option Key := none

/-- The options that were given, and the values that they were given. -/
structure Matches where
  given : List Key := []
  values : List (Key × String) := []

namespace Matches

def isGiven (m : Matches) (key : Key) : Bool :=
  m.given.contains key

def valuesOf (m : Matches) (key : Key) : List String :=
  (m.values.filter (·.1 = key)).map (·.2)

def value? (m : Matches) (key : Key) : Option String :=
  (m.valuesOf key).head?

def give (m : Matches) (key : Key) : Matches :=
  { m with given := m.given ++ [key] }

def addValue (m : Matches) (key : Key) (value : String) : Matches :=
  { m with values := m.values ++ [(key, value)] }

end Matches

/-- Why reading arguments stops. -/
inductive Stop
  /-- Help was asked for. -/
  | help
  /-- The arguments make no sense. -/
  | misuse
  deriving DecidableEq, Repr

/-! ## Single arguments -/

/-- Removes the minuses before a name. -/
def dropHyphens (cs : List Char) : List Char :=
  cs.dropWhile (· = '-')

/-- Whether an argument looks like an option; a single minus does not. -/
def looksLikeOption : List Char → Bool
  | '-' :: _ :: _ => true
  | _ => false

/-- The name and the joined value of a long option. -/
def splitLong (cs : List Char) : String × Option (List Char) :=
  let cs := dropHyphens cs
  let name := String.ofList (cs.takeWhile (· ≠ '='))
  match cs.dropWhile (· ≠ '=') with
  | [] => (name, none)
  | _ :: value => (name, some value)

/-- The state of reading: the matches, and the option that waits for a value. -/
structure Reading where
  found : Matches := {}
  waiting : Option OptionSpec := none

/-- Takes in an option with the value joined to it, if there is one. -/
def readOption (m : Matches) (o : OptionSpec) (joined : Option (List Char)) : Except Stop Reading :=
  if o.takesValue then
    match joined with
    | none => .ok { found := m.give o.key, waiting := some o }
    | some value =>
      match value.dropWhile (· = '=') with
      | [] =>
        if o.allowsEmpty then
          .ok { found := (m.addValue o.key "").give o.key }
        else
          .error .misuse
      | value => .ok { found := (m.addValue o.key (String.ofList value)).give o.key }
  else
    .ok { found := m.give o.key }

def readLong (options : List OptionSpec) (m : Matches) (cs : List Char) : Except Stop Reading :=
  let (name, joined) := splitLong cs
  match options.find? (·.long == some name) with
  | some o => readOption m o joined
  | none => if name = "help" then .error .help else .error .misuse

/-- Takes in short options; the first one that takes a value takes what is left. -/
def readShort (options : List OptionSpec) (m : Matches) : List Char → Except Stop Reading
  | [] => .ok { found := m }
  | c :: cs =>
    match options.find? (·.short == some c) with
    | some o =>
      if o.takesValue then
        readOption m o (if cs.isEmpty then none else some cs)
      else
        readShort options (m.give o.key) cs
    | none => if c = 'h' then .error .help else .error .misuse

/-! ## Whole command lines -/

/-- Reads arguments. After two minuses nothing may follow. -/
def readArguments (options : List OptionSpec) : Reading → List String → Except Stop Reading
  | reading, [] => .ok reading
  | reading, argument :: rest =>
    let cs := argument.toList
    let accepts := reading.waiting.filter fun o ↦ o.allowsHyphen || !looksLikeOption cs
    match accepts with
    | some o =>
      readArguments options { found := reading.found.addValue o.key argument } rest
    | none =>
      match cs with
      | ['-', '-'] => if rest.isEmpty then .ok reading else .error .misuse
      | '-' :: '-' :: _ => do
        let reading ← readLong options reading.found cs
        readArguments options reading rest
      | '-' :: c :: cs => do
        let reading ← readShort options reading.found (c :: cs)
        readArguments options reading rest
      | _ => .error .misuse

/-- Adds the standard value of an option that has no value. -/
def Matches.complete (m : Matches) (o : OptionSpec) : Matches :=
  match m.valuesOf o.key, o.standard with
  | [], some value => m.addValue o.key value
  | _, _ => m

/-- Whether the occurrences and the values of an option are admissible. -/
def OptionSpec.admits (o : OptionSpec) (m : Matches) : Bool :=
  let values := m.valuesOf o.key
  let occurrences := m.given.count o.key
  (o.isRepeatable || occurrences ≤ 1) &&
    (occurrences != 0 || !o.isRequired) &&
    (occurrences == 0 || !o.takesValue || !values.isEmpty) &&
    (values.all fun value ↦
      (o.allowsEmpty || !value.isEmpty) && o.values.all (·.contains value)) &&
    (occurrences == 0 || o.needs.all m.isGiven)

/-- Reads and checks the arguments of a command with the given options. -/
def parseOptions (options : List OptionSpec) (arguments : List String) : Except Stop Matches := do
  let reading ← readArguments options {} arguments
  let found := options.foldl Matches.complete reading.found
  if options.all (·.admits found) then
    return found
  else
    throw .misuse

end LiftedPlanning.CommandLine
