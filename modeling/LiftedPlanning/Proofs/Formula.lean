import Mathlib.Data.List.Flatten
import Mathlib.Data.List.Perm.Basic
import LiftedPlanning.Formula

/-!
# Conditions and choices of formulas

A split goes into conjunctions and disjunctions of one operand and stops at conditions and at
choices, that is at proper disjunctions. What it stops at is all of the formula, in the order of the
formula; so a formula without choices is the conjunction of its flat part. Demanding one formula
beside another puts their conditions, and their choices, one after the other.
-/

namespace LiftedPlanning.Formula

variable {fs : List Formula}

/-! ## Operands -/

theorem conditionsAll_eq_flatMap : conditionsAll fs = fs.flatMap conditions := by
  induction fs with
  | nil => rfl
  | cons f fs ih => rw [conditionsAll, ih, List.flatMap_cons]

theorem flatAll_eq_flatMap : flatAll fs = fs.flatMap flat := by
  induction fs with
  | nil => rfl
  | cons f fs ih => rw [flatAll, ih, List.flatMap_cons]

theorem choicesAll_eq_flatMap : choicesAll fs = fs.flatMap choices := by
  induction fs with
  | nil => rfl
  | cons f fs ih => rw [choicesAll, ih, List.flatMap_cons]

theorem conditions_conj : (conj fs).conditions = fs.flatMap conditions := by
  rw [conditions, conditionsAll_eq_flatMap]

theorem conditions_disj : (disj fs).conditions = fs.flatMap conditions := by
  rw [conditions, conditionsAll_eq_flatMap]

theorem flat_conj : (conj fs).flat = fs.flatMap flat := by
  rw [flat, flatAll_eq_flatMap]

theorem choices_conj : (conj fs).choices = fs.flatMap choices := by
  rw [choices, choicesAll_eq_flatMap]

theorem flat_disj (h : fs.length ≠ 1) : (disj fs).flat = [] := by
  match fs with
  | [] => rw [flat]; exact nofun
  | [_] => exact absurd rfl h
  | _ :: _ :: _ => rw [flat]; exact nofun

theorem choices_disj (h : fs.length ≠ 1) : (disj fs).choices = [disj fs] := by
  match fs with
  | [] => rw [choices]; exact nofun
  | [_] => exact absurd rfl h
  | _ :: _ :: _ => rw [choices]; exact nofun

/-! ## Splitting -/

/-- Induction along a split: into conjunctions and disjunctions of a single operand, but not into
choices. -/
@[elab_as_elim]
theorem splitInduction {motive : Formula → Prop} (literal : ∀ c, motive (.literal c))
    (conj : ∀ fs, (∀ f ∈ fs, motive f) → motive (.conj fs))
    (single : ∀ f, motive f → motive (.disj [f]))
    (choice : ∀ fs, fs.length ≠ 1 → motive (.disj fs)) : ∀ f, motive f
  | .literal c => literal c
  | .conj fs => conj fs fun f _ ↦ splitInduction literal conj single choice f
  | .disj [f] => single f (splitInduction literal conj single choice f)
  | .disj [] => choice [] Nat.zero_ne_one
  | .disj (_ :: _ :: _) => choice _ (by simp)

theorem flat_sublist_conditions (f : Formula) : f.flat.Sublist f.conditions := by
  induction f using splitInduction with
  | literal c => rw [flat, conditions]
  | conj fs ih =>
    rw [flat_conj, conditions_conj]
    exact .flatMap_right fs ih
  | single f ih => rwa [flat, conditions_disj, List.flatMap_singleton]
  | choice fs h =>
    rw [flat_disj h]
    exact List.nil_sublist _

theorem flatMap_choices_sublist_conditions (f : Formula) :
    (f.choices.flatMap conditions).Sublist f.conditions := by
  induction f using splitInduction with
  | literal c =>
    rw [choices, List.flatMap_nil]
    exact List.nil_sublist _
  | conj fs ih =>
    rw [choices_conj, List.flatMap_assoc, conditions_conj]
    exact .flatMap_right fs ih
  | single f ih => rwa [choices, conditions_disj, List.flatMap_singleton]
  | choice fs h => rw [choices_disj h, List.flatMap_singleton]

/-- The flat part and the choices are all of a formula. -/
theorem flat_append_flatMap_choices_perm (f : Formula) :
    (f.flat ++ f.choices.flatMap conditions).Perm f.conditions := by
  induction f using splitInduction with
  | literal c => rw [flat, choices, conditions, List.flatMap_nil, List.append_nil]
  | conj fs ih =>
    rw [flat_conj, choices_conj, List.flatMap_assoc, conditions_conj]
    exact (List.flatMap_append_perm ..).trans (.flatMap_left fs ih)
  | single f ih => rwa [flat, choices, conditions_disj, List.flatMap_singleton]
  | choice fs h => rw [flat_disj h, choices_disj h, List.flatMap_singleton, List.nil_append]

theorem mem_conditions_of_mem_flat {f : Formula} {c : Condition} (h : c ∈ f.flat) :
    c ∈ f.conditions :=
  f.flat_sublist_conditions.subset h

theorem flat_eq_conditions {f : Formula} (h : f.choices = []) : f.flat = f.conditions := by
  have hperm := f.flat_append_flatMap_choices_perm
  rw [h, List.flatMap_nil, List.append_nil] at hperm
  exact f.flat_sublist_conditions.eq_of_length hperm.length_eq

theorem residual_eq_none_iff {f : Formula} : f.residual = none ↔ f.choices = [] := by
  rw [residual]
  split
  · rename_i h
    simp [h]
  · rename_i h
    simp [h]
  · rename_i h _
    simpa using h

/-! ## Conjunctions -/

theorem conditions_and (f g : Formula) : (f.and g).conditions = f.conditions ++ g.conditions := by
  cases f <;> simp [Formula.and, conditions_conj]

theorem flat_and (f g : Formula) : (f.and g).flat = f.flat ++ g.flat := by
  cases f <;> simp [Formula.and, flat_conj]

theorem choices_and (f g : Formula) : (f.and g).choices = f.choices ++ g.choices := by
  cases f <;> simp [Formula.and, choices_conj]

/-! ## Disjunctions of conditions -/

theorem conditions_disj_literals (cs : List Condition) :
    (disj (cs.map literal)).conditions = cs := by
  have hliteral : ∀ c, conditions (literal c) = [c] := fun c ↦ by rw [conditions]
  rw [conditions_disj, List.flatMap_map]
  simp only [hliteral, List.flatMap_singleton']

end LiftedPlanning.Formula
