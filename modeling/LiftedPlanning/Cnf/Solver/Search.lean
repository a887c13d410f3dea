import LiftedPlanning.Cnf.Solver.Forgetting
import LiftedPlanning.Cnf.Solver.Lesson
import LiftedPlanning.Cnf.Solver.Propagation

/-!
# Searching for a model

The search draws consequences and decides open variables in turn. A conflict ends the branches below
the depth of its lesson; there the search goes on with the literal that the lesson teaches. Every
call of `search` is made with one more variable assigned than the call it is made from, so that the
recursion is on the number of open variables.

A search may have a budget of conflicts. When it is used up the search stops, and starts again with
what it has learned: the order of decisions has changed meanwhile.
-/

namespace LiftedPlanning.Cnf.Solver

inductive Outcome
  /-- All variables are assigned. -/
  | model
  /-- There is no model. -/
  | unsatisfiable
  /-- The variable that was to be tried first is true in every model. -/
  | refuted
  /-- The budget is used up. -/
  | stopped
  /-- The search goes on at the depth of a lesson. -/
  | lesson (lesson : Lesson)

/-- The next decision. The first one is to make a given variable false; later on a variable gets
the value that it had last. -/
inductive Choice
  | decision (l : Nat)
  | complete
  | refuted

def choose (target : Option Nat) (s : Solver) : Choice × Solver :=
  match target.filter fun _ ↦ s.depth = 0 with
  | some v =>
    if s.holds (Code.pos v) then
      (.refuted, s)
    else if s.holds (Code.neg v) then
      chooseRecent s
    else
      (.decision (Code.neg v), s)
  | none => chooseRecent s
where
  /-- Chooses the variable that was involved in a conflict last. -/
  chooseRecent (s : Solver) : Choice × Solver :=
    let queue := s.queue
    match queue.retreat s.isOpen (s.varCount + 1) with
    | (none, queue) => (.complete, { s with queue })
    | (some v, queue) =>
      let l := if s.phase.getD v false then Code.pos v else Code.neg v
      (.decision l, { s with queue })

/-- Searches a model that extends the trail, with `budget` conflicts, and no limit if there is none.
The number of open variables is below the number in front. -/
def search (target : Option Nat) : Nat → Option Nat → Solver → Outcome × Option Nat × Solver
  | 0, budget, s => (.stopped, budget, s)
  | n + 1, budget, s =>
    match s.propagate with
    | (some id, s) =>
      if s.depth = 0 then
        (.unsatisfiable, budget, s)
      else
        let (lesson, s) := s.learn id
        if budget = some 0 && lesson.depth != 0 then
          (.stopped, budget, s)
        else
          (.lesson lesson, budget.map (· - 1), s)
    | (none, s) =>
      match s.choose target with
      | (.complete, s) => (.model, budget, s)
      | (.refuted, s) => (.refuted, budget, s)
      | (.decision l, s) =>
        let size := s.trail.size
        let depth := s.depth
        match search target n budget (s.decide l) with
        | (.lesson lesson, budget, s) =>
          if lesson.depth < depth then
            (.lesson lesson, budget, s)
          else
            search target n budget ((s.backtrack size depth).assign lesson.literal lesson.reason)
        | result => result

/-- Searches a model in rounds with the given budgets, and then without a limit. Returns to depth 0
between the rounds. -/
def searchRounds (target : Option Nat) : List Nat → Solver → Outcome × Solver
  | [], s =>
    let (outcome, _, s) := search target (s.varCount + 1) none s
    (outcome, s)
  | budget :: budgets, s =>
    match search target (s.varCount + 1) (some budget) s with
    | (.stopped, _, s) => searchRounds target budgets (s.restart.forget (8000 + 10 * budget))
    | (outcome, _, s) => (outcome, s)

def budgets : List Nat :=
  (List.range 1000).map fun i ↦ 50 + 10 * i

/-- Searches a model, in which a given variable is false if there is one. -/
def run (s : Solver) (target : Option Nat) : Outcome × Solver :=
  if s.contradiction then (.unsatisfiable, s) else searchRounds target budgets s

end LiftedPlanning.Cnf.Solver
