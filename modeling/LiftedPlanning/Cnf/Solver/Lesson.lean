import LiftedPlanning.Cnf.Solver.Basic

/-!
# Learning from conflicts

A clause that is in conflict is resolved with the reasons of its literals, the latest first, until
it holds a single literal of the current depth. The clause that is left follows from the others. It
would have made that literal true at the depth of its other literals, so that the search goes back
there.
-/

namespace LiftedPlanning.Cnf.Solver

/-- What a conflict teaches: a literal that is true already at a lower depth, because of a clause.
A literal without a reason is true in every model. -/
structure Lesson where
  literal : Nat
  reason : Option Nat
  depth : Nat

/-- The resolvent in the making. -/
structure Resolvent where
  /-- The variables that have occurred in it. -/
  marks : Array Bool
  marked : List Nat
  /-- The number of its literals of the current depth. -/
  current : Nat
  /-- Its literals of lower depth. -/
  lower : List Nat

namespace Resolvent

/-- Takes in a literal that is false. What is false in every model is left out. -/
def addLiteral (s : Solver) (r : Resolvent) (l : Nat) : Resolvent :=
  let v := Code.var l
  let depth := s.depthOf.getD v 0
  if depth = 0 || r.marks.getD v true then
    r
  else
    let marks := r.marks.setIfInBounds v true
    let marked := v :: r.marked
    if depth = s.depth then
      { r with marks, marked, current := r.current + 1 }
    else
      { r with marks, marked, lower := l :: r.lower }

/-- Takes in the literals of a clause. Literals of variables that were marked before are in the
resolvent already, or have been resolved away. -/
def addClause (s : Solver) (r : Resolvent) (id : Nat) : Resolvent :=
  (s.clauses.getD id #[]).foldl (addLiteral s) r

/-- Resolves with reasons, looking at the first `n` literals of the trail, the last one first.
Returns the literal of the trail whose opposite is the only one of the current depth. -/
def resolve (s : Solver) : Nat → Resolvent → Nat × Resolvent
  | 0, r => (0, r)
  | n + 1, r =>
    let l := s.trail.getD n 0
    if r.marks.getD (Code.var l) false then
      match s.reason.getD (Code.var l) none with
      | some id =>
        if r.current ≤ 1 then
          (l, r)
        else
          resolve s n (addClause s { r with current := r.current - 1 } id)
      | none => (l, r)
    else
      resolve s n r

/-- Whether a literal is implied by the rest of the resolvent. -/
def isImplied (s : Solver) (r : Resolvent) (l : Nat) : Bool :=
  match s.reason.getD (Code.var l) none with
  | none => false
  | some id =>
    (s.clauses.getD id #[]).all fun other ↦
      let v := Code.var other
      r.marks.getD v false || s.depthOf.getD v 0 == 0

end Resolvent

def deepestFirst (s : Solver) : List Nat → List Nat
  | [] => []
  | l :: ls =>
    match deepestFirst s ls with
    | [] => [l]
    | m :: ms =>
      if s.depthOf.getD (Code.var l) 0 < s.depthOf.getD (Code.var m) 0 then
        m :: l :: ms
      else
        l :: m :: ms

/-- Learns from a clause that is in conflict at a positive depth. The variables involved are put at
the end of the queue, in the order in which they were there. -/
def learn (s : Solver) (id : Nat) : Lesson × Solver :=
  let marks := s.marks
  let s := { s with marks := #[] }
  let start : Resolvent := { marks, marked := [], current := 0, lower := [] }
  let (uip, r) := Resolvent.resolve s s.trail.size (Resolvent.addClause s start id)
  let lower := deepestFirst s (r.lower.filter fun l ↦ !r.isImplied s l)
  let literal := Code.opposite uip
  let stamps := r.marked.map fun v ↦ (s.queue.stamp.getD v 0, v)
  let recent := (stamps.mergeSort fun a b ↦ a.1 ≤ b.1).map (·.2)
  let s := { s with
    marks := r.marked.foldl (fun marks v ↦ marks.setIfInBounds v false) r.marks
    queue := recent.foldl VariableQueue.moveToEnd s.queue }
  match lower with
  | [] => ({ literal, reason := none, depth := 0 }, s)
  | l :: _ =>
    let depths := (literal :: lower).map fun l ↦ s.depthOf.getD (Code.var l) 0
    let lesson := { literal, reason := some s.clauses.size, depth := s.depthOf.getD (Code.var l) 0 }
    (lesson, s.attach (literal :: lower).toArray depths.eraseDups.length)

end LiftedPlanning.Cnf.Solver
