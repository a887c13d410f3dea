import LiftedPlanning.Cnf.Solver.Basic

/-!
# Propagation

Drawing the consequences of a trail: a clause whose literals are all false but one makes that one
true, and a clause whose literals are all false is a conflict.
-/

namespace LiftedPlanning.Cnf.Solver

/-- A literal among the first `n` of a clause that is not false, other than a given one. -/
def findWatch (isTrue : Array Bool) (c : Array Nat) (other : Nat) : Nat → Option Nat
  | 0 => none
  | n + 1 =>
    let l := c.getD n 0
    if l != other && !isTrue.getD (Code.opposite l) false then
      some l
    else
      findWatch isTrue c other n

/-- Watches another literal of a clause in place of one that became false. -/
def rewatch (s : Solver) (id other l : Nat) : Solver :=
  { s with
    watched := s.watched.setIfInBounds id (other + l)
    watchers := s.watchers.modify l (·.push id) }

/-- Looks at the watchers of a literal that became false, from place `i` on, and at no more than `n`
of them. Returns a clause that is in conflict, and those that go on watching the literal. -/
def visit (l : Nat) : Nat → Nat → Array Nat → Solver → Option Nat × Array Nat × Solver
  | 0, _, ids, s => (none, ids, s)
  | n + 1, i, ids, s =>
    let id := ids.getD i 0
    let other := s.watched.getD id 0 - l
    if s.holds other then
      visit l n (i + 1) ids s
    else
      let c := s.clauses.getD id #[]
      match findWatch s.isTrue c other c.size with
      | some new =>
        visit l n i (ids.setIfInBounds i (ids.back?.getD 0)).pop (s.rewatch id other new)
      | none =>
        if s.holds (Code.opposite other) then
          (some id, ids, s)
        else
          visit l n (i + 1) ids (s.assign other (some id))

/-- Draws the consequences of a literal that became false. -/
def propagateFalse (s : Solver) (l : Nat) : Option Nat × Solver :=
  let ids := s.watchers.getD l #[]
  let s := { s with watchers := s.watchers.setIfInBounds l #[] }
  let (conflict, ids, s) := visit l ids.size 0 ids s
  (conflict, { s with watchers := s.watchers.setIfInBounds l ids })

/-- Draws the consequences of the trail, for no more than `n` of its literals. -/
def propagateTrail : Nat → Solver → Option Nat × Solver
  | 0, s => (none, s)
  | n + 1, s =>
    if s.propagated < s.trail.size then
      let l := s.trail.getD s.propagated 0
      match propagateFalse { s with propagated := s.propagated + 1 } (Code.opposite l) with
      | (none, s) => propagateTrail n s
      | result => result
    else
      (none, s)

/-- Draws all the consequences of the trail, or finds a clause that is in conflict. The trail holds
every variable at most once. -/
def propagate (s : Solver) : Option Nat × Solver :=
  propagateTrail (s.varCount + 1) s

end LiftedPlanning.Cnf.Solver
