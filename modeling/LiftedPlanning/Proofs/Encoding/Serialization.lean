import Mathlib.Data.List.Perm.Basic
import LiftedPlanning.Proofs.Encoding.Soundness
import LiftedPlanning.Proofs.Plan.Serialization

/-!
# Parallel steps in any order

The interference clauses keep the actions of different operators apart, and a step holds at most one
action of an operator. That the effects of a step are consistent is not said by any clause of that
step: an atom that is both added and deleted would have two values in the next block.
-/

namespace LiftedPlanning.Encoding

open Cnf (Assignment)

variable {p : Problem} {g : Grounding} {mode : EligibilityMode} {strategy : Strategy} {e : Encoding}
  {os : List Occurrence} {m : Assignment} {horizon k : Nat} {plan : Plan}

theorem IsStepOf.consistent {l : Layout} {semantics : StepSemantics} {m' : Assignment}
    {actions : List Action} (hs : IsStepOf p l m actions) (hb : IsBlock p g semantics l m)
    (ht : IsTransition p g l m m') : Plan.Consistent p actions := by
  rintro atom ⟨hadd, hdel⟩
  obtain ⟨op, args, hr, hc⟩ := hs.brings_iff.mp hadd
  obtain ⟨op', args', hr', hc'⟩ := hs.brings_iff.mp hdel
  obtain ⟨id, hid⟩ := hb.known _ _ _ atom _ hr hc
  have htrue := ht.effect op args atom false id hr hc hid
  have hfalse := ht.effect op' args' atom true id hr' hc' hid
  rw [← Bool.not_false, ← Layout.negate_signed] at hfalse
  exact Assignment.not_satisfies_negate htrue hfalse

section Decoded

variable (he : IsEncoding p g strategy e os)
  (hrun : IsRun p g strategy.semantics e.layout (e.formula.block m) horizon)
  (hd : Plan.decode e.layout g m horizon = .ok plan)

include he hrun hd

theorem IsEncoding.independent_of_decode (hpar : strategy.semantics = .parallel) (hk : k ≤ horizon)
    {a b : Action} (ha : a ∈ plan.actionsAt k) (hb : b ∈ plan.actionsAt k)
    (hne : a.operator ≠ b.operator) : Plan.Independent p a b := by
  obtain ⟨_, _, hra, _⟩ := Plan.mem_actionsAt_of_decode hd ha
  obtain ⟨_, _, hrb, _⟩ := Plan.mem_actionsAt_of_decode hd hb
  rw [← he.block_eq] at hra hrb
  exact fun atom negated ↦
    (hrun.isBlock k hk).independent hpar _ _ _ _ atom negated hra hrb hne

theorem IsEncoding.consistent_of_decode (hk : k < horizon) :
    Plan.Consistent p (plan.actionsAt k) :=
  (he.isStepOf_of_decode hd hk).consistent (hrun.isBlock k (Nat.le_of_lt hk))
    (hrun.isTransition k hk)

end Decoded

/-- **Parallel steps can be executed in any order.** Under the parallel semantics, the actions of a
decoded plan may be executed one by one: the steps in order, and the actions of each step in
whatever order. -/
theorem check_ofSequence_of_decode (he : ofProblem p g ⟨.parallel, mode⟩ = .ok e)
    (hm : m.Models (e.formula.unrolled horizon))
    (hgoal : ∀ s ∈ e.formula.goalAt horizon, m.satisfies s = true)
    (hd : Plan.decode e.layout g m horizon = .ok plan) {order : Nat → List Action}
    (horder : ∀ k < horizon, (order k).Perm (plan.actionsAt k)) :
    Plan.check p (.ofSequence ((List.range horizon).flatMap order)) = .ok () ∧
      (Plan.ofSequence ((List.range horizon).flatMap order)).makespan = plan.size := by
  obtain ⟨os, hos⟩ := exists_isEncoding he
  have hrun := hos.isRun_of_models hm
  have hmakespan := Plan.makespan_of_decode hd
  constructor
  · have hcheck := hos.check_of_isRun hrun hgoal hd
    subst hmakespan
    refine Plan.check_serialized hcheck horder (fun k hk ↦ ?_) fun k hk ↦
      hos.consistent_of_decode hrun hd hk
    have hops : (plan.actionsAt k).Pairwise fun a b ↦ a.operator ≠ b.operator :=
      (Plan.pairwise_actionsAt (Plan.pairwise_entries_of_decode hd) k).imp
        fun hlt heq ↦ Nat.ne_of_lt hlt (congrArg Handle.index heq)
    have hops' : (order k).Pairwise fun a b ↦ a.operator ≠ b.operator :=
      ((horder k hk).pairwise_iff fun h ↦ h.symm).mpr hops
    refine hops'.imp_of_mem fun ha hb hne ↦ ?_
    rw [(horder k hk).mem_iff] at ha hb
    exact hos.independent_of_decode hrun hd rfl (Nat.le_of_lt hk) ha hb hne
  · have hwithin : ∀ entry ∈ plan.entries, entry.1 < horizon := fun entry hentry ↦
      (Plan.mem_actionsAt_of_decode hd (Plan.mem_actionsAt_iff.mpr hentry)).1
    have hperm : ((List.range horizon).flatMap order).Perm (plan.entries.map (·.2)) :=
      (List.Perm.flatMap_left _ fun k hk ↦ horder k (List.mem_range.mp hk)).trans
        (Plan.flatMap_actionsAt_perm hwithin)
    rw [Plan.ofSequence, Plan.size, hperm.length_eq, List.length_map]

/-- Ringing may as well come before opening. -/
theorem check_ofSequence_doors :
    Plan.check doors (.ofSequence (doorsPlan.actionsAt 0).reverse) = .ok () ∧
      (Plan.ofSequence (doorsPlan.actionsAt 0).reverse).makespan = doorsPlan.size := by
  have hd : Plan.decode doorsEncoding.layout doorsGrounding doorsModel 1 = .ok doorsPlan := by
    decide +kernel
  have h := check_ofSequence_of_decode (Fallible.eq_ok_get _) (by decide +kernel)
    (by decide +kernel) hd fun k _ ↦ List.reverse_perm (doorsPlan.actionsAt k)
  rwa [List.range_one, List.flatMap_singleton] at h

end LiftedPlanning.Encoding
