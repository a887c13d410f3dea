import LiftedPlanning.Cnf.Store
import LiftedPlanning.Cnf.Word

/-!
# Reachability formulas

The reachability of the goal is described by clauses about a single step, shifted along for the
others. The initial clauses fix the values of the atoms at step 0, the universal clauses hold at
every step, the transition clauses link a step to the next one, and the goal is a list of literals
about the last step.
-/

namespace LiftedPlanning

open Cnf (Literal Clause)

/-- The clauses of step 0, of the transition from step 0 to step 1, and of the goal at step 0. -/
structure ReachabilityFormula where
  initial : List Clause
  goal : List Literal
  universal : List Clause
  transition : List Clause
  /-- The number of variables of a step. -/
  stepSize : Nat

namespace ReachabilityFormula

/-- Clauses about step 0, moved to step `k`. -/
def moved (f : ReachabilityFormula) (k : Nat) (clauses : List Clause) : List Clause :=
  clauses.map (Clause.shift (k * f.stepSize))

def goalAt (f : ReachabilityFormula) (k : Nat) : List Literal :=
  f.goal.map (Literal.shift (k * f.stepSize))

def universalAt (f : ReachabilityFormula) (k : Nat) : List Clause :=
  f.moved k f.universal

/-- The transition clauses from step `k` to the next one. -/
def transitionAt (f : ReachabilityFormula) (k : Nat) : List Clause :=
  f.moved k f.transition

/-- All the clauses about the steps up to a horizon. -/
def unrolled (f : ReachabilityFormula) : Nat → List Clause
  | 0 => f.initial ++ f.universalAt 0
  | h + 1 => f.unrolled h ++ (f.transitionAt h ++ f.universalAt (h + 1))

/-! ### Steps in words

The number of a step may be any word. The parts of the formula at a step then consist of words, and
have no result where the arithmetic of words has none. -/

/-- The number of variables before step `k`, if it is a word. -/
def offset? (f : ReachabilityFormula) (k : Nat) : Option Nat :=
  let offset := k * f.stepSize
  if offset < wordCount then some offset else none

/-- Clauses about step 0 in words, moved to step `k`. -/
def moved? (f : ReachabilityFormula) (k : Nat) (clauses : List Clause) : Option (List Clause) := do
  let offset ← f.offset? k
  clauses.mapM (·.shiftWord? offset)

def goalAt? (f : ReachabilityFormula) (k : Nat) : Option (List Literal) := do
  let offset ← f.offset? k
  f.goal.mapM (·.shiftWord? offset)

end ReachabilityFormula

/-- A store that holds a formula unrolled up to a horizon. -/
structure Unrolling where
  horizon : Nat
  store : Cnf.Store

namespace Unrolling

/-- Puts the clauses of step 0 into a store. -/
def start (f : ReachabilityFormula) (s : Cnf.Store) : Unrolling where
  horizon := 0
  store := ((s.reserve f.stepSize).addClauses f.initial).addClauses (f.universalAt 0)

/-- Adds the next step. -/
def extend (f : ReachabilityFormula) (u : Unrolling) : Unrolling where
  horizon := u.horizon + 1
  store := ((u.store.reserve ((u.horizon + 2) * f.stepSize)).addClauses
    (f.transitionAt u.horizon)).addClauses (f.universalAt (u.horizon + 1))

def goal (f : ReachabilityFormula) (u : Unrolling) : List Literal :=
  f.goalAt u.horizon

end Unrolling

end LiftedPlanning
