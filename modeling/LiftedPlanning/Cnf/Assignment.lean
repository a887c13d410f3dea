import LiftedPlanning.Cnf.Literal

/-!
# Assignments

An assignment gives values to the first variables, leaving some of them open. The answer of a solver
is an assignment, the fact that there is none, or nothing at all.
-/

namespace LiftedPlanning.Cnf

/-- The values of the first variables; `none` is an open variable. -/
structure Assignment where
  values : Array (Option Bool)
  deriving DecidableEq, Repr

namespace Assignment

def blank (n : Nat) : Assignment :=
  ⟨.replicate n none⟩

/-- The value of a variable; the variables beyond the assignment are open. -/
def value? (a : Assignment) (var : Nat) : Option Bool :=
  (a.values[var]?).join

/-- Gives a literal's variable the value that makes the literal true. -/
def assign (a : Assignment) (l : Literal) : Assignment :=
  ⟨a.values.setIfInBounds l.var (some l.positive)⟩

/-- The assignment of `n` variables that makes literals true, of two for a variable the later
one. -/
def ofLiterals (n : Nat) (ls : List Literal) : Assignment :=
  ls.foldl assign (.blank n)

/-- Whether a literal is true; an open variable makes neither of its literals true. -/
def satisfies (a : Assignment) (l : Literal) : Bool :=
  a.value? l.var == some l.positive

def satisfiesClause (a : Assignment) (c : Clause) : Bool :=
  c.any a.satisfies

end Assignment

/-- The outcome of a call to a solver. -/
inductive Verdict
  | satisfiable (model : Assignment)
  | unsatisfiable
  | unknown
  deriving DecidableEq, Repr

end LiftedPlanning.Cnf
