import LiftedPlanning.Encoding.Formula
import LiftedPlanning.Proofs.Cnf.Satisfaction

/-!
# Models of unrolled formulas

A model of a formula unrolled to a horizon is a model of the initial clauses in its first block, of
the universal clauses in every block, and of the transition clauses in every block but the last one,
which reach into the block after it. The store that a formula is unrolled into holds the clauses of
its horizon, whatever the assumptions of the calls in between were.
-/

namespace LiftedPlanning

open Cnf (Assignment Clause Literal)

namespace ReachabilityFormula

/-- The part of an assignment that starts with the variables of step `k`. -/
def block (f : ReachabilityFormula) (m : Assignment) (k : Nat) : Assignment :=
  m.after (k * f.stepSize)

variable {f : ReachabilityFormula} {m : Assignment}

@[simp] theorem block_zero : f.block m 0 = m := by
  simp [block]

theorem block_after (k : Nat) : (f.block m k).after f.stepSize = f.block m (k + 1) := by
  rw [block, block, Assignment.after_after, Nat.succ_mul]

theorem models_moved_iff {k : Nat} {clauses : List Clause} :
    m.Models (f.moved k clauses) ↔ (f.block m k).Models clauses :=
  Assignment.models_after.symm

theorem models_unrolled_iff {h : Nat} :
    m.Models (f.unrolled h) ↔ m.Models f.initial ∧ (∀ k ≤ h, (f.block m k).Models f.universal) ∧
      ∀ k < h, (f.block m k).Models f.transition := by
  induction h with
  | zero =>
    rw [unrolled, Assignment.Models.append_iff, universalAt, models_moved_iff]
    simp
  | succ h ih =>
    rw [unrolled, Assignment.Models.append_iff, Assignment.Models.append_iff, ih, transitionAt,
      universalAt, models_moved_iff, models_moved_iff]
    constructor
    · rintro ⟨⟨hi, hu, ht⟩, ht', hu'⟩
      refine ⟨hi, fun k hk ↦ ?_, fun k hk ↦ ?_⟩
      · rcases Nat.le_succ_iff.mp hk with hk | rfl
        · exact hu k hk
        · exact hu'
      · rcases Nat.lt_succ_iff_lt_or_eq.mp hk with hk | rfl
        · exact ht k hk
        · exact ht'
    · rintro ⟨hi, hu, ht⟩
      exact ⟨⟨hi, fun k hk ↦ hu k (Nat.le_succ_of_le hk), fun k hk ↦ ht k (Nat.lt_succ_of_lt hk)⟩,
        ht h (Nat.lt_succ_self h), hu (h + 1) (Nat.le_refl _)⟩

theorem satisfies_goalAt_iff {h : Nat} :
    (∀ l ∈ f.goalAt h, m.satisfies l = true) ↔ ∀ l ∈ f.goal, (f.block m h).satisfies l = true := by
  simp only [goalAt, List.forall_mem_map, block, Assignment.satisfies_after]

/-! ## Solutions -/

/-- A model of the formula unrolled to a horizon, with the goal at the last step. -/
def Solves (f : ReachabilityFormula) (h : Nat) (m : Assignment) : Prop :=
  m.Models (f.unrolled h) ∧ ∀ l ∈ f.goalAt h, m.satisfies l = true

def Solvable (f : ReachabilityFormula) (h : Nat) : Prop :=
  ∃ m, f.Solves h m

end ReachabilityFormula

namespace Unrolling

/-! ## Stores -/

/-- The store of an unrolling holds the formula unrolled to its horizon, and no other clauses. -/
def Holds (f : ReachabilityFormula) (u : Unrolling) : Prop :=
  u.store.clauses = f.unrolled u.horizon

variable {f : ReachabilityFormula} {u : Unrolling}

theorem holds_start (f : ReachabilityFormula) : (start f .empty).Holds f := rfl

theorem Holds.extend (h : u.Holds f) : (Unrolling.extend f u).Holds f := by
  rw [Holds] at h
  simp only [Holds, Unrolling.extend, Cnf.Store.addClauses, Cnf.Store.reserve, h,
    ReachabilityFormula.unrolled, List.append_assoc]

/-- Assumptions are not kept. -/
theorem Holds.assume (h : u.Holds f) (goal : List Literal) :
    Holds f { u with store := u.store.assume goal } :=
  h

end Unrolling

end LiftedPlanning
