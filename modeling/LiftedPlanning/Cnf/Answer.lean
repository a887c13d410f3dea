import LiftedPlanning.Cnf.Assignment
import LiftedPlanning.Explanation
import LiftedPlanning.Text.Line
import LiftedPlanning.Text.Number
import LiftedPlanning.Word

/-!
# Answers of solvers

A solver prints a status line `s SATISFIABLE` or `s UNSATISFIABLE`, value lines `v 1 -2 0` with the
literals of its model, and comment lines; empty lines are skipped. Variables that are not listed
stay open, and of two values for a variable the last one counts. An answer that breaks the format is
refused, and one without a status, or without a value line for a claimed model, tells nothing.
-/

namespace LiftedPlanning.Cnf

/-- What is wrong with an answer. -/
inductive AnswerError
  | notText
  | repeatedStatus
  | badLiteral (word : String)
  | repeatedZero
  | unboundVariable (number : Nat)
  | unexpectedLine (line : String)
  deriving DecidableEq, Repr

instance : Explained AnswerError where
  chain e :=
    let cause := match e with
      | .notText => "stream did not contain valid UTF-8"
      | .repeatedStatus => "multiple status lines"
      | .badLiteral word => s!"\"{word}\" is not a literal"
      | .repeatedZero => "multiple zeroes on value lines"
      | .unboundVariable number => s!"variable {number} is out of bounds"
      | .unexpectedLine line => s!"unexpected line \"{line}\""
    ["while reading the output of a buffered SAT solver", cause]

/-- What the lines read so far have told. -/
structure Answer where
  /-- Whether the status is satisfiable, once it was given. -/
  status : Option Bool := none
  /-- The literals of the value lines, the latest first. -/
  literals : List Literal := []
  /-- Whether there was a value line. -/
  hasValues : Bool := false
  /-- Whether the values were ended by a zero. -/
  ended : Bool := false

namespace Answer

/-- The blanks that separate the words of a value line. -/
def isSeparator (c : Char) : Bool :=
  c = ' ' || c = '\t' || c = '\n' || c = '\r' || c.toNat = 0xC

def words (cs : List Char) : List (List Char) :=
  (Text.fieldsBy isSeparator cs).filter fun word ↦ !word.isEmpty

/-- Takes in a word of a value line of an answer about `n` variables. -/
def readWord (n : Nat) (a : Answer) (word : List Char) : Except AnswerError Answer :=
  match Text.readInteger? word with
  | none => .error (.badLiteral (String.ofList word))
  | some number =>
    match Literal.ofInt? number with
    | none => if a.ended then .error .repeatedZero else .ok { a with ended := true }
    | some l =>
      if l.var < n then
        .ok { a with literals := l :: a.literals }
      else
        .error (.unboundVariable l.number)

def readStatus (a : Answer) (satisfiable : Bool) : Except AnswerError Answer :=
  if a.status.isSome then .error .repeatedStatus else .ok { a with status := some satisfiable }

/-- Whether a line may be skipped: a comment, a value line without values, or an empty line. -/
def isSkipped (line : List Char) : Bool :=
  ['c', ' '].isPrefixOf line || line == ['c'] || line == ['v'] || line.isEmpty

/-- Takes in a line of an answer about `n` variables. -/
def readLine (n : Nat) (a : Answer) : Option (List Char) → Except AnswerError Answer
  | none => .error .notText
  | some line =>
    if line = "s SATISFIABLE".toList then
      a.readStatus true
    else if line = "s UNSATISFIABLE".toList then
      a.readStatus false
    else
      match line with
      | 'v' :: ' ' :: values => (words values).foldlM (readWord n) { a with hasValues := true }
      | _ => if isSkipped line then .ok a else .error (.unexpectedLine (String.ofList line))

/-- What an answer about `n` variables comes down to. -/
def verdict (n : Nat) (a : Answer) : Verdict :=
  match a.status, a.hasValues with
  | some true, true => .satisfiable (.ofLiterals n a.literals.reverse)
  | some false, _ => .unsatisfiable
  | _, _ => .unknown

/-- Reads the output of a solver that was asked about `n` variables. -/
def read (n : Nat) (output : List UInt8) : Except AnswerError Verdict :=
  ((Text.storedLines output).foldlM (readLine n) {}).map (verdict n)

/-- `read`, unless the values of `n` variables are more than a table in memory can hold. -/
def read? (n : Nat) (output : List UInt8) : Option (Except AnswerError Verdict) :=
  if n < signBound then some (read n output) else none

end Answer

end LiftedPlanning.Cnf
