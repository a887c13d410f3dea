import LiftedPlanning.Cnf.Solver.Basic

/-!
# Forgetting lessons

The more clauses there are, the longer it takes to draw consequences. Learned clauses may be
forgotten at any time at which they are no reasons, since they follow from the others. Those whose
literals are spread over few depths are the most useful ones, and the late ones are more useful than
the early ones.
-/

namespace LiftedPlanning.Cnf.Solver

/-- The learned clauses, the most useful ones first. -/
def learned (s : Solver) : List Nat :=
  let ids := (List.range s.clauses.size).filter fun id ↦ s.spread.getD id 0 != 0
  ids.reverse.mergeSort fun a b ↦ s.spread.getD a 0 ≤ s.spread.getD b 0

/-- Keeps the clauses that are marked, under new numbers. -/
def keepMarked (s : Solver) (marks : Array Bool) : Solver :=
  let kept := (Array.range s.clauses.size).filter fun id ↦ marks.getD id false
  let places := kept.zipIdx.foldl (fun (places : Array Nat) (id, place) ↦
    places.setIfInBounds id place) (.replicate s.clauses.size 0)
  let move (ids : Array Nat) : Array Nat :=
    (ids.filter fun id ↦ marks.getD id false).map fun id ↦ places.getD id 0
  { s with
    clauses := kept.map fun id ↦ s.clauses.getD id #[]
    spread := kept.map fun id ↦ s.spread.getD id 0
    watched := kept.map fun id ↦ s.watched.getD id 0
    watchers := s.watchers.map move }

/-- Forgets the less useful half of the learned clauses if there are more than `limit`. To be used
at depth 0 only, where reasons are not asked for. -/
def forget (s : Solver) (limit : Nat) : Solver :=
  let learned := s.learned
  let count := learned.length
  if count ≤ limit then
    s
  else
    let useless := (learned.drop (count / 2)).filter fun id ↦ 2 < s.spread.getD id 0
    let marks := useless.foldl (fun (marks : Array Bool) id ↦ marks.setIfInBounds id false)
      (.replicate s.clauses.size true)
    s.keepMarked marks

end LiftedPlanning.Cnf.Solver
