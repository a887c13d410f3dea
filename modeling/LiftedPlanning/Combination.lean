import LiftedPlanning.Word

/-!
# Combinations

The combinations of a list of candidate sets choose one candidate of every set. They are listed in
odometer order, the last position moving fastest. No set at all leaves exactly one combination, the
empty one; a set without candidates leaves none.

An `Odometer` runs through the same list one by one. Each of its wheels shows the candidates that it
has not passed yet, the current one first; when a wheel has run out, the one to its left moves on
and the full sets are put back to its right.
-/

namespace LiftedPlanning

variable {α : Type}

/-- All the combinations in odometer order. -/
def combinations : List (List α) → List (List α)
  | [] => [[]]
  | set :: sets => set.flatMap fun a ↦ (combinations sets).map (a :: ·)

/-- The number of combinations, unless a product of set sizes, taken from left to right, leaves the
range of 64-bit words. -/
def combinationCount? (sets : List (List α)) : Option Nat :=
  sets.foldlM (fun n set ↦ if n * set.length < wordCount then some (n * set.length) else none) 1

/-- Moves the wheels to the next combination; `none` after the last one. -/
def advance : List (List α) → List (List α) → Option (List (List α))
  | _ :: sets, wheel :: wheels =>
    match advance sets wheels with
    | some wheels => some (wheel :: wheels)
    | none =>
      match wheel with
      | _ :: a :: rest => some ((a :: rest) :: sets)
      | _ => none
  | _, _ => none

/-- The combinations from the current one on. -/
def upcoming : List (List α) → List (List α) → List (List α)
  | _ :: sets, (a :: rest) :: wheels =>
    (upcoming sets wheels).map (a :: ·) ++
      rest.flatMap fun b ↦ (combinations sets).map (b :: ·)
  | _, [] => [[]]
  | _, _ => []

/-- A run through the combinations of candidate sets. -/
structure Odometer (α : Type) where
  sets : List (List α)
  /-- The wheels, or `none` once all the combinations were shown. -/
  wheels : Option (List (List α))

namespace Odometer

/-- The run before its first combination; there is none to show if some set is empty. -/
def start (sets : List (List α)) : Odometer α where
  sets := sets
  wheels := if sets.any List.isEmpty then none else some sets

/-- The run before its first combination, from anywhere. -/
def reset (o : Odometer α) : Odometer α :=
  start o.sets

/-- The next combination, if there is one, and the run after it. -/
def next (o : Odometer α) : Option (List α) × Odometer α :=
  match o.wheels with
  | none => (none, o)
  | some wheels => (some (wheels.filterMap List.head?), { o with wheels := advance o.sets wheels })

/-- The combinations still to come. -/
def remaining (o : Odometer α) : List (List α) :=
  match o.wheels with
  | none => []
  | some wheels => upcoming o.sets wheels

/-- The run after its last combination. -/
def finish (o : Odometer α) : Odometer α :=
  { o with wheels := none }

end Odometer

end LiftedPlanning
