/-!
# Literals and clauses

Variables are counted from 0. In the numeric form of a literal, as it is written to and read from
solvers, variables are counted from 1 and a minus is a negation, so that 0 is no literal.
-/

namespace LiftedPlanning.Cnf

/-- A variable with a sign. -/
structure Literal where
  var : Nat
  positive : Bool
  deriving DecidableEq, Repr

/-- A disjunction of literals. -/
abbrev Clause := List Literal

namespace Literal

def pos (var : Nat) : Literal := ⟨var, true⟩

def neg (var : Nat) : Literal := ⟨var, false⟩

def negate (l : Literal) : Literal :=
  { l with positive := !l.positive }

/-- The literal of the same sign, `offset` variables further on. -/
def shift (offset : Nat) (l : Literal) : Literal :=
  { l with var := l.var + offset }

/-- The number of the variable, counted from 1. -/
def number (l : Literal) : Nat :=
  l.var + 1

def toInt (l : Literal) : Int :=
  if l.positive then l.number else -l.number

def ofInt? (n : Int) : Option Literal :=
  if n = 0 then none else some ⟨n.natAbs - 1, decide (0 < n)⟩

def text (l : Literal) : String :=
  toString l.toInt

end Literal

namespace Clause

/-- The clause, `offset` variables further on. -/
def shift (offset : Nat) (c : Clause) : Clause :=
  c.map (Literal.shift offset)

/-- The greatest variable number of a clause, 0 for the empty one. -/
def maxNumber (c : Clause) : Nat :=
  c.foldl (fun n l ↦ max n l.number) 0

end Clause

end LiftedPlanning.Cnf
