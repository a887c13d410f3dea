import LiftedPlanning.Cnf.Literal
import LiftedPlanning.Text.Line

/-!
# Clause stores

An incremental solver keeps the clauses it was given; the assumptions of a call only count for that
call. A store is what such a solver knows between its calls, and `Store.dimacs` is the instance that
a call is about, in the DIMACS format: comments, the header, the clauses, and the assumptions as
unit clauses.
-/

namespace LiftedPlanning.Cnf

/-- The clauses, comments and variables of a solver. -/
structure Store where
  comments : List (List Char) := []
  clauses : List Clause := []
  /-- The greatest variable number that was seen in a clause or an assumption, or reserved. -/
  varCount : Nat := 0

namespace Store

def empty : Store := {}

/-- Remembers the lines of a comment. -/
def addComment (s : Store) (comment : String) : Store :=
  { s with comments := s.comments ++ Text.lines comment.toList }

def addClause (s : Store) (c : Clause) : Store :=
  { s with clauses := s.clauses ++ [c], varCount := max s.varCount (Clause.maxNumber c) }

def addClauses (s : Store) (cs : List Clause) : Store :=
  { s with
    clauses := s.clauses ++ cs
    varCount := cs.foldl (fun n c ↦ max n (Clause.maxNumber c)) s.varCount }

/-- Makes the variables up to number `n` part of the models. -/
def reserve (s : Store) (n : Nat) : Store :=
  { s with varCount := max s.varCount n }

/-- Notes the variables of assumptions; nothing else of them is kept. -/
def assume (s : Store) (assumptions : List Literal) : Store :=
  s.reserve (Clause.maxNumber assumptions)

/-- The clauses that a call under assumptions is about. -/
def instanceClauses (s : Store) (assumptions : List Literal) : List Clause :=
  s.clauses ++ assumptions.map ([·])

/-! ## The DIMACS format -/

/-- A comment line starts with a `c` and a space. -/
def commentLine (line : List Char) : String :=
  String.ofList ('c' :: ' ' :: line ++ ['\n'])

/-- The header gives the numbers of variables and clauses. -/
def headerLine (varCount clauseCount : Nat) : String :=
  s!"p cnf {varCount} {clauseCount}\n"

/-- A clause is the numeric form of its literals, ended by a zero. -/
def clauseLine (c : Clause) : String :=
  String.join (c.map fun l ↦ l.text ++ " ") ++ "0\n"

/-- The instance of a call under assumptions. -/
def dimacs (s : Store) (assumptions : List Literal) : String :=
  let clauses := s.instanceClauses assumptions
  String.join (s.comments.map commentLine) ++ headerLine s.varCount clauses.length ++
    String.join (clauses.map clauseLine)

end Store

end LiftedPlanning.Cnf
