import LiftedPlanning.Cnf.Literal

/-!
# The state of a search

A search for a model assigns literals one after the other. The literals that are true so far form
the trail. Those that the search has chosen are its decisions, and the depth of an assignment is the
number of decisions made before it or by it; what is assigned at depth 0 holds in every model. All
other literals have a reason, a clause whose other literals were false already.

Inside a search, a literal is a number: the literals of variable `v` are `2 * v`, which makes it
true, and `2 * v + 1`. The tables of a state are arrays over variables, literals or clauses, so that
a step of the search costs no more than the clauses that it looks at.

Two literals of every clause are watched. As long as a watched literal is not false, the clause
leaves more than one choice or is satisfied, so a clause need only be looked at when one of its
watched literals becomes false.
-/

namespace LiftedPlanning.Cnf

/-! ## Literals as numbers -/

namespace Literal

/-- The number of a literal. -/
def code (l : Literal) : Nat :=
  2 * l.var + (if l.positive then 0 else 1)

end Literal

namespace Code

def pos (v : Nat) : Nat := 2 * v

def neg (v : Nat) : Nat := 2 * v + 1

def var (l : Nat) : Nat := l / 2

def opposite (l : Nat) : Nat := l ^^^ 1

def isPositive (l : Nat) : Bool := l % 2 == 0

end Code

/-! ## The order of decisions -/

/-- The variables in a ring, the most recently involved in a conflict last. The ring is closed by
one place more than there are variables, which stands between the last variable and the first. -/
structure VariableQueue where
  next : Array Nat
  previous : Array Nat
  /-- When a variable was last put at the end. -/
  stamp : Array Nat
  clock : Nat
  /-- A variable that no open one comes after. -/
  cursor : Nat

namespace VariableQueue

/-- The place that closes the ring. -/
def seam (q : VariableQueue) : Nat :=
  q.stamp.size

/-- The ring of the first `n` variables in increasing order. -/
def ofCount (n : Nat) : VariableQueue where
  next := (Array.range (n + 1)).map fun v ↦ if v = n then 0 else v + 1
  previous := (Array.range (n + 1)).map fun v ↦ if v = 0 then n else v - 1
  stamp := Array.range n
  clock := n
  cursor := n - 1

def moveToEnd (q : VariableQueue) (v : Nat) : VariableQueue :=
  let seam := q.seam
  let before := q.previous.getD v seam
  let after := q.next.getD v seam
  let next := q.next.setIfInBounds before after
  let previous := q.previous.setIfInBounds after before
  let last := previous.getD seam seam
  { next := (next.setIfInBounds last v).setIfInBounds v seam
    previous := (previous.setIfInBounds v last).setIfInBounds seam v
    stamp := q.stamp.setIfInBounds v q.clock
    clock := q.clock + 1
    cursor := q.cursor }

/-- Notes that a variable is open again. -/
def reopen (q : VariableQueue) (v : Nat) : VariableQueue :=
  if q.stamp.getD q.cursor 0 < q.stamp.getD v 0 then { q with cursor := v } else q

/-- Moves the cursor back to an open variable, looking at no more than `n` variables. -/
def retreat (isOpen : Nat → Bool) : Nat → VariableQueue → Option Nat × VariableQueue
  | 0, q => (none, q)
  | n + 1, q =>
    let v := q.cursor
    if v = q.seam then
      (none, q)
    else if isOpen v then
      (some v, q)
    else
      retreat isOpen n { q with cursor := q.previous.getD v q.seam }

end VariableQueue

/-! ## States -/

/-- The state of a search. -/
structure Solver where
  /-- The clauses, given or learned, of at least two literals. -/
  clauses : Array (Array Nat)
  /-- For every clause, the number of depths that its literals had when it was learned; 0 if it was
  given. -/
  spread : Array Nat
  /-- For every clause, the sum of its two watched literals: each of them gives the other. -/
  watched : Array Nat
  /-- For every literal, the clauses in which it is watched. -/
  watchers : Array (Array Nat)
  /-- Whether a literal is true; if neither a literal nor its opposite is, its variable is open. -/
  isTrue : Array Bool
  /-- The depth at which a variable was assigned. -/
  depthOf : Array Nat
  /-- The clause that left no choice for a variable. -/
  reason : Array (Option Nat)
  /-- The last value of a variable. -/
  phase : Array Bool
  /-- The literals that are true, in the order in which they became so. -/
  trail : Array Nat
  /-- The number of literals of the trail whose consequences have been drawn. -/
  propagated : Nat
  /-- The number of decisions. -/
  depth : Nat
  queue : VariableQueue
  /-- Scratch space of conflict analysis, one mark for every variable. -/
  marks : Array Bool
  /-- Whether the clauses were found to contradict each other. -/
  contradiction : Bool

namespace Solver

/-- The state without clauses over the first `n` variables. -/
def ofCount (n : Nat) : Solver where
  clauses := #[]
  spread := #[]
  watched := #[]
  watchers := .replicate (2 * n) #[]
  isTrue := .replicate (2 * n) false
  depthOf := .replicate n 0
  reason := .replicate n none
  phase := .replicate n false
  trail := #[]
  propagated := 0
  depth := 0
  queue := .ofCount n
  marks := .replicate n false
  contradiction := false

def varCount (s : Solver) : Nat :=
  s.phase.size

def holds (s : Solver) (l : Nat) : Bool :=
  s.isTrue.getD l false

def isOpen (s : Solver) (v : Nat) : Bool :=
  !s.holds (Code.pos v) && !s.holds (Code.neg v)

def assign (s : Solver) (l : Nat) (reason : Option Nat) : Solver :=
  let v := Code.var l
  { s with
    isTrue := s.isTrue.setIfInBounds l true
    depthOf := s.depthOf.setIfInBounds v s.depth
    reason := s.reason.setIfInBounds v reason
    phase := s.phase.setIfInBounds v (Code.isPositive l)
    trail := s.trail.push l }

/-- Makes a literal true by choice. -/
def decide (s : Solver) (l : Nat) : Solver :=
  { s with depth := s.depth + 1 }.assign l none

/-- Takes back the last `n` assignments. -/
def undo : Nat → Solver → Solver
  | 0, s => s
  | n + 1, s =>
    let l := s.trail.back?.getD 0
    undo n { s with
      isTrue := s.isTrue.setIfInBounds l false
      trail := s.trail.pop
      queue := s.queue.reopen (Code.var l) }

/-- Goes back to the moment when the trail had a size and the search a depth. -/
def backtrack (s : Solver) (size depth : Nat) : Solver :=
  let s := undo (s.trail.size - size) s
  { s with propagated := size, depth }

/-- The number of literals that were assigned before the first decision. -/
def rootSize (s : Solver) : Nat :=
  let rec count : Nat → Nat
    | 0 => 0
    | n + 1 =>
      if s.depthOf.getD (Code.var (s.trail.getD n 0)) 0 = 0 then n + 1 else count n
  count s.trail.size

/-- Goes back to the moment before the first decision. -/
def restart (s : Solver) : Solver :=
  if s.depth = 0 then s else s.backtrack s.rootSize 0

/-- Adds a clause whose first two literals are to be watched. -/
def attach (s : Solver) (c : Array Nat) (spread : Nat) : Solver :=
  let id := s.clauses.size
  let first := c.getD 0 0
  let second := c.getD 1 0
  { s with
    clauses := s.clauses.push c
    spread := s.spread.push spread
    watched := s.watched.push (first + second)
    watchers := (s.watchers.modify first (·.push id)).modify second (·.push id) }

/-- Makes a literal true at depth 0. -/
def fix (s : Solver) (l : Nat) : Solver :=
  if s.holds l then
    s
  else if s.holds (Code.opposite l) then
    { s with contradiction := true }
  else
    s.assign l none

/-- Adds a clause before the first decision. A clause that holds both literals of a variable is
dropped. -/
def addClause (s : Solver) (c : Clause) : Solver :=
  let codes := (c.map Literal.code).eraseDups
  if codes.any fun l ↦ codes.contains (Code.opposite l) then
    s
  else
    match codes with
    | [] => { s with contradiction := true }
    | [l] => s.fix l
    | _ => s.attach codes.toArray 0

/-- The values of the variables, open ones being false. -/
def model (s : Solver) : Array Bool :=
  (Array.range s.varCount).map fun v ↦ s.holds (Code.pos v)

end Solver

end LiftedPlanning.Cnf
