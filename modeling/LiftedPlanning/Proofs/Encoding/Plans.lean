import LiftedPlanning.Proofs.Encoding.RoundTrip
import LiftedPlanning.Proofs.Encoding.Serialization

/-!
# The plans of a formula

What the solutions of an unrolled formula are decoded to can be represented, over any grounding.
Over a relaxed grounding every plan of that kind has a solution, and every solution is decoded. So
the plans of a formula are described without its clauses and variables. The description does not
mention the source of the eligible constants: the formulas for either source have different
variables, clauses and models, but the same plans. A sequence of actions that the checker accepts is
among the sequential plans unless one of its actions adds and deletes the same atom.
-/

namespace LiftedPlanning.Encoding

open Cnf (Assignment)

variable {p : Problem} {g : Grounding} {strategy : Strategy} {e : Encoding} {os : List Occurrence}
  {m : Assignment} {horizon : Nat} {plan : Plan}

/-- The plans that the solutions of the formula are decoded to. -/
def plansAt (g : Grounding) (e : Encoding) (horizon : Nat) : Set Plan :=
  {plan | ∃ m, e.formula.Solves horizon m ∧ Plan.decode e.layout g m horizon = .ok plan}

/-! ## Decoded plans -/

section Decoded

variable (he : IsEncoding p g strategy e os)

include he

theorem IsEncoding.operator_eq_of_decode (hseq : strategy.semantics = .sequential)
    (hm : m.Models (e.formula.unrolled horizon))
    (hd : Plan.decode e.layout g m horizon = .ok plan) {k : Nat} {a b : Action}
    (ha : a ∈ plan.actionsAt k) (hb : b ∈ plan.actionsAt k) : a.operator = b.operator := by
  obtain ⟨hk, hopa, hra, _⟩ := Plan.mem_actionsAt_of_decode hd ha
  obtain ⟨_, hopb, hrb, _⟩ := Plan.mem_actionsAt_of_decode hd hb
  have hblock := (he.isRun_of_models hm).isBlock k (Nat.le_of_lt hk)
  rw [he.block_eq] at hblock
  exact hblock.exclusive hseq _ _ hopa hopb hra.active hrb.active

/-- **Decoded plans can be represented.** -/
theorem IsEncoding.representable_of_decode (h : e.formula.Solves horizon m)
    (hd : Plan.decode e.layout g m horizon = .ok plan) :
    Representable p g strategy.semantics plan := by
  obtain ⟨hm, hgoal⟩ := h
  have hrun := he.isRun_of_models hm
  have hbefore := Plan.pairwise_entries_of_decode hd
  have hmakespan := Plan.makespan_of_decode hd
  refine ⟨he.check_of_isRun hrun hgoal hd, ?_, ?_, ?_, ?_, ?_, ?_, ?_⟩
  · intro entry hentry
    obtain ⟨_, _, _, hact⟩ := Plan.mem_actionsAt_of_decode hd (Plan.mem_actionsAt_iff.mpr hentry)
    exact (Grounding.mem_of_action? hact).1
  · intro entry hentry
    rw [hmakespan]
    exact (Plan.mem_actionsAt_of_decode hd (Plan.mem_actionsAt_iff.mpr hentry)).1
  · exact hbefore.imp fun hlt ↦ hlt.imp_right fun ⟨hstep, hop⟩ ↦ ⟨hstep, Nat.le_of_lt hop⟩
  -- the operators of a step are in strict order
  · refine hbefore.imp fun {x y} hlt hstep hop ↦ ?_
    rw [Plan.Before, hstep, hop] at hlt
    omega
  · intro hseq
    refine hbefore.imp_of_mem fun {x y} hx hy hlt hstep ↦ ?_
    have hx' : x.2 ∈ plan.actionsAt y.1 := Plan.mem_actionsAt_iff.mpr (hstep ▸ hx)
    have hop := he.operator_eq_of_decode hseq hm hd hx' (Plan.mem_actionsAt_iff.mpr hy)
    rw [Plan.Before, hstep, hop] at hlt
    omega
  · intro k hk
    exact he.consistent_of_decode hrun hd (hmakespan ▸ hk)
  · intro hpar k hk a ha b hb hne
    exact he.independent_of_decode hrun hd hpar (hmakespan ▸ Nat.le_of_lt hk) ha hb hne

end Decoded

/-! ## Relaxed groundings -/

section Relaxed

variable {reached : Set GroundAtom} (hg : RelaxedGrounding.IsRelaxed p g reached)

include hg

theorem exists_decode_of_models (he : IsEncoding p g strategy e os)
    (hm : m.Models (e.formula.unrolled horizon)) :
    ∃ plan, Plan.decode e.layout g m horizon = .ok plan := by
  refine Plan.exists_decode_of_runs fun k hk op hop ha ↦ ?_
  rw [← he.block_eq] at ha ⊢
  exact exists_runs_of_models hg he hm hk (Layout.mem_operators_iff.mp hop) ha

/-- **The plans of a formula.** -/
theorem mem_plansAt_iff (he : ofProblem p g strategy = .ok e) :
    plan ∈ plansAt g e horizon ↔
      Representable p g strategy.semantics plan ∧ plan.makespan = horizon := by
  obtain ⟨os, hos⟩ := exists_isEncoding he
  constructor
  · rintro ⟨m, hsolves, hd⟩
    exact ⟨hos.representable_of_decode hsolves hd, Plan.makespan_of_decode hd⟩
  · rintro ⟨h, rfl⟩
    have hm := hos.models_valuationOf hg h
    have hforced : (valuationOf p g strategy.eligibility plan).Models
        (forcedClauses e.layout plan) := by
      rw [hos.layout]
      exact models_forcedClauses_valuationOf hg h
    exact ⟨_, ⟨hm, hos.satisfies_goal_valuationOf h⟩, decode_of_models_forced hg h hos hforced hm⟩

theorem solvable_iff (he : ofProblem p g strategy = .ok e) :
    e.formula.Solvable horizon ↔ ∃ plan, plan ∈ plansAt g e horizon := by
  obtain ⟨os, hos⟩ := exists_isEncoding he
  constructor
  · rintro ⟨m, hsolves⟩
    obtain ⟨plan, hd⟩ := exists_decode_of_models hg hos hsolves.1
    exact ⟨plan, m, hsolves, hd⟩
  · rintro ⟨_, m, hsolves, _⟩
    exact ⟨m, hsolves⟩

end Relaxed

/-! ## Sequences of actions -/

/-- An accepted sequence can be represented exactly if none of its actions adds and deletes the same
atom. -/
theorem representable_ofSequence_iff {actions : List Action}
    (hlisted : ∀ a ∈ actions, a ∈ g.actions)
    (hcheck : Plan.check p (.ofSequence actions) = .ok ()) :
    Representable p g .sequential (.ofSequence actions) ↔
      ∀ a ∈ actions, Plan.Consistent p [a] := by
  constructor
  · intro h a ha
    obtain ⟨k, hk⟩ := List.mem_iff_getElem?.mp ha
    have hmem := Plan.mem_actionsAt_ofSequence_iff.mpr hk
    refine (h.consistent k (h.lt_makespan hmem)).mono ?_
    rw [List.forall_mem_singleton]
    exact hmem
  · intro hcons
    have hlt : (Plan.ofSequence actions).entries.Pairwise fun x y ↦ x.1 < y.1 :=
      Plan.pairwise_entries_ofSequence
    refine ⟨hcheck, ?_, ?_, ?_, ?_, ?_, ?_, nofun⟩
    · exact fun entry hentry ↦ hlisted _ (Plan.of_mem_entries_ofSequence hentry).2
    · exact fun entry hentry ↦ (Plan.of_mem_entries_ofSequence hentry).1
    · exact hlt.imp .inl
    · exact hlt.imp fun hstep heq ↦ absurd heq (Nat.ne_of_lt hstep)
    · exact fun _ ↦ hlt.imp Nat.ne_of_lt
    -- a step holds a single action
    · intro k hk
      have hk : k < actions.length := hk
      refine (hcons actions[k] (List.getElem_mem hk)).mono fun a ha ↦ ?_
      rw [Plan.mem_actionsAt_ofSequence_iff, List.getElem?_eq_getElem hk] at ha
      exact List.mem_singleton.mpr (Option.some.inj ha).symm

/-- If every action adds and deletes some atom, only plans without actions can be represented. -/
theorem Representable.entries_eq_nil {semantics : StepSemantics}
    (h : Representable p g semantics plan) (hnone : ∀ a ∈ g.actions, ¬Plan.Consistent p [a]) :
    plan.entries = [] := by
  refine List.eq_nil_iff_forall_not_mem.mpr fun entry hentry ↦ ?_
  have ha := Plan.mem_actionsAt_iff.mpr hentry
  refine hnone _ (h.mem_actions ha) ((h.consistent _ (h.lt_makespan ha)).mono ?_)
  rw [List.forall_mem_singleton]
  exact ha

/-! ## Sources of eligible constants -/

/-- **The source of the eligible constants does not matter.** A problem that the relaxed grounder
accepts can be encoded with the constants of fitting types as well as with those of the actions that
were found. At every horizon the solutions of both formulas are decoded to the same plans, and there
is one for both or for none. -/
theorem plansAt_lifted_eq_grounded {r : RelaxedGrounding}
    (hr : RelaxedGrounding.ofProblem p = .ok r) (semantics : StepSemantics) :
    ∃ lifted grounded, ofProblem p r.grounding ⟨semantics, .lifted⟩ = .ok lifted ∧
      ofProblem p r.grounding ⟨semantics, .grounded⟩ = .ok grounded ∧
      ∀ horizon, plansAt r.grounding lifted horizon = plansAt r.grounding grounded horizon ∧
        (lifted.formula.Solvable horizon ↔ grounded.formula.Solvable horizon) := by
  obtain ⟨reached, hg⟩ := RelaxedGrounding.exists_isRelaxed hr
  obtain ⟨lifted, hl⟩ := exists_ofProblem_of_isRelaxed hg ⟨semantics, .lifted⟩
  obtain ⟨grounded, hgr⟩ := exists_ofProblem_of_isRelaxed hg ⟨semantics, .grounded⟩
  refine ⟨lifted, grounded, hl, hgr, fun horizon ↦ ?_⟩
  have hplans : plansAt r.grounding lifted horizon = plansAt r.grounding grounded horizon := by
    ext plan
    rw [mem_plansAt_iff hg hl, mem_plansAt_iff hg hgr]
  refine ⟨hplans, ?_⟩
  rw [solvable_iff hg hl, solvable_iff hg hgr, hplans]

/-- Both formulas have the plan that opens one door and rings at the other one. -/
theorem mem_plansAt_doors :
    ∃ lifted grounded, ofProblem doors doorsRelaxed.grounding ⟨.parallel, .lifted⟩ = .ok lifted ∧
      ofProblem doors doorsRelaxed.grounding ⟨.parallel, .grounded⟩ = .ok grounded ∧
      doorsRelaxedPlan ∈ plansAt doorsRelaxed.grounding lifted 1 ∧
      doorsRelaxedPlan ∈ plansAt doorsRelaxed.grounding grounded 1 := by
  have hr : RelaxedGrounding.ofProblem doors = .ok doorsRelaxed := Fallible.eq_ok_get _
  obtain ⟨lifted, grounded, hl, hgr, h⟩ := plansAt_lifted_eq_grounded hr .parallel
  obtain ⟨reached, hg⟩ := RelaxedGrounding.exists_isRelaxed hr
  have hmem : doorsRelaxedPlan ∈ plansAt doorsRelaxed.grounding lifted 1 :=
    (mem_plansAt_iff hg hl).mpr ⟨by decide +kernel, rfl⟩
  exact ⟨lifted, grounded, hl, hgr, hmem, (h 1).1 ▸ hmem⟩

end LiftedPlanning.Encoding
