import Mathlib.Algebra.GroupWithZero.Nat
import Mathlib.Data.List.Forall2
import LiftedPlanning.Combination

/-!
# Members of combinations

A combination chooses one candidate of every set, and every such choice is listed, as often as there
are ways to make it. If the sets are listed in some order, then the combinations are in the
lexicographic one.
-/

namespace LiftedPlanning

variable {α : Type}

theorem mem_combinations {sets : List (List α)} {xs : List α} :
    xs ∈ combinations sets ↔ List.Forall₂ (· ∈ ·) xs sets := by
  induction sets generalizing xs with
  | nil => simp [combinations]
  | cons set sets ih =>
    simp only [combinations, List.mem_flatMap, List.mem_map, ih, List.forall₂_cons_right_iff]
    constructor
    · rintro ⟨a, ha, ys, hys, rfl⟩
      exact ⟨a, ys, ha, hys, rfl⟩
    · rintro ⟨a, ys, ha, hys, rfl⟩
      exact ⟨a, ha, ys, hys, rfl⟩

theorem length_of_mem_combinations {sets : List (List α)} {xs : List α}
    (h : xs ∈ combinations sets) : xs.length = sets.length :=
  (mem_combinations.mp h).length_eq

theorem combinations_map {β : Type} (f : α → β) (sets : List (List α)) :
    combinations (sets.map (List.map f)) = (combinations sets).map (List.map f) := by
  induction sets with
  | nil => rfl
  | cons set sets ih =>
    simp only [List.map_cons, combinations, ih, List.flatMap_map, List.map_flatMap, List.map_map]
    rfl

theorem length_combinations (sets : List (List α)) :
    (combinations sets).length = (sets.map List.length).prod := by
  induction sets with
  | nil => rfl
  | cons set sets ih =>
    simp only [combinations, List.length_flatMap, List.length_map, ih, List.map_const',
      List.sum_replicate_nat, List.map_cons, List.prod_cons]

/-- Every combination has a member with a property exactly if all the members of some set have it:
otherwise one could choose a member without it from every set. -/
theorem forall_combinations_iff {q : α → Prop} {sets : List (List α)} :
    (∀ xs ∈ combinations sets, ∃ x ∈ xs, q x) ↔ ∃ set ∈ sets, ∀ x ∈ set, q x := by
  induction sets with
  | nil => simp [combinations]
  | cons set sets ih =>
    have hcons : (∀ xs ∈ combinations (set :: sets), ∃ x ∈ xs, q x) ↔
        ∀ a ∈ set, q a ∨ ∀ xs ∈ combinations sets, ∃ x ∈ xs, q x := by
      simp only [combinations, List.forall_mem_flatMap, List.forall_mem_map,
        List.exists_mem_cons_iff, forall_or_left]
    rw [hcons, ih, List.exists_mem_cons_iff]
    by_cases hset : ∃ set ∈ sets, ∀ x ∈ set, q x
    · simp only [hset, or_true, implies_true]
    · simp only [hset, or_false]

/-- Odometer order is lexicographic. -/
theorem pairwise_combinations {r : α → α → Prop} {sets : List (List α)}
    (h : ∀ set ∈ sets, set.Pairwise r) : (combinations sets).Pairwise (List.Lex r) := by
  induction sets with
  | nil => exact List.pairwise_singleton _ _
  | cons set sets ih =>
    obtain ⟨hset, hsets⟩ := List.forall_mem_cons.mp h
    rw [combinations, List.pairwise_flatMap]
    refine ⟨fun a _ ↦ ?_, hset.imp fun {a b} hab ↦ ?_⟩
    · exact List.pairwise_map.mpr ((ih hsets).imp .cons)
    · simp only [List.forall_mem_map]
      exact fun _ _ _ _ ↦ .rel hab

end LiftedPlanning
