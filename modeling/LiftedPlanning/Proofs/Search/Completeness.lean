import LiftedPlanning.Proofs.Search.Outcome

/-!
# Sequences that a search finds

A sequence of actions that the checker accepts is a sequential plan. It is among the plans of the
formula exactly if none of its actions adds and deletes the same atom, and then a search whose
bounds allow as many steps finds a plan that is no longer.

The checker deletes before it adds, so that what an action adds and deletes holds after it. In the
formula the effects of an action are demanded all at once, and such an action is never executed. At
the end of the module it is the only action of a problem, which the checker takes to be solved by
it, but for which no search finds a plan.
-/

set_option mvcgen.warning false

open Std.Do

namespace LiftedPlanning.Search

open Encoding (plansAt)

variable {p : Problem} {g : Grounding} {e : Encoding} {within : Nat → Prop} {limit : Nat}
  {answer : Option (Except SearchError PlanningResult)}

theorem Outcome.exists_plan (h : Outcome within g e limit answer)
    (hdecodes : ∀ cause, answer ≠ some (.error cause)) {n : Nat} (hn : n < limit)
    (hsolvable : e.formula.Solvable n) (hwithin : ∀ k, 1 ≤ k → k ≤ n → within k) :
    ∃ plan : Plan, answer = some (.ok (.plan plan)) ∧ plan.makespan ≤ n := by
  cases h with
  | plan least allowed solves decoded =>
    obtain rfl := Plan.makespan_of_decode decoded
    exact ⟨_, rfl, least.2 hsolvable⟩
  | undecodable least allowed solves decoded => exact absurd rfl (hdecodes _)
  | @boundReached k allowed refused unsolvable =>
    rcases Nat.lt_or_ge k n with hlt | hge
    · exact absurd (hwithin (k + 1) (Nat.le_add_left 1 k) hlt) refused
    · exact absurd hsolvable (unsolvable n hge)
  | unfinished allowed unsolvable => exact absurd hsolvable (unsolvable n hn)

variable {m : Type → Type} [Monad m] {ps : PostShape} [WPMonad m ps] {tools : SearchTools m}
  {actions : List Action}

/-- **Sequences of consistent actions are found.** Let a sequence of actions of a relaxed grounding
be accepted by the checker. The sequential formula has it among its plans exactly if no action adds
and deletes the same atom. In that case the formula can be satisfied at the length of the sequence,
and with a right solver a search that may use as many steps finds a plan that is no longer. -/
theorem exists_plan_of_check_ofSequence {r : RelaxedGrounding}
    (hr : RelaxedGrounding.ofProblem p = .ok r) (mode : EligibilityMode)
    (hlisted : ∀ a ∈ actions, a ∈ r.grounding.actions)
    (hcheck : Plan.check p (.ofSequence actions) = .ok ()) (ht : Meets tools within) :
    ∃ e, Encoding.ofProblem p r.grounding ⟨.sequential, mode⟩ = .ok e ∧
      (Plan.ofSequence actions ∈ plansAt r.grounding e actions.length ↔
        ∀ a ∈ actions, Plan.Consistent p [a]) ∧
      ((∀ a ∈ actions, Plan.Consistent p [a]) →
        e.formula.Solvable actions.length ∧
          (actions.length < wordCount → (∀ k, 1 ≤ k → k ≤ actions.length → within k) →
            ⦃⌜True⌝⦄ ofProblem tools p r.grounding ⟨.sequential, mode⟩
            ⦃⇓ answer => ⌜∃ plan : Plan, answer = some (.ok (.plan plan)) ∧
              plan.makespan ≤ actions.length⌝⦄)) := by
  obtain ⟨reached, hg⟩ := RelaxedGrounding.exists_isRelaxed hr
  obtain ⟨e, he⟩ := Encoding.exists_ofProblem_of_isRelaxed hg ⟨.sequential, mode⟩
  have hplans : Plan.ofSequence actions ∈ plansAt r.grounding e actions.length ↔
      ∀ a ∈ actions, Plan.Consistent p [a] := by
    have hmakespan : (Plan.ofSequence actions).makespan = actions.length := rfl
    rw [Encoding.mem_plansAt_iff hg he, and_iff_left hmakespan]
    exact Encoding.representable_ofSequence_iff hlisted hcheck
  refine ⟨e, he, hplans, fun hcons ↦ ?_⟩
  have hsolvable : e.formula.Solvable actions.length :=
    (Encoding.solvable_iff hg he).mpr ⟨_, hplans.mpr hcons⟩
  refine ⟨hsolvable, fun hlength hwithin ↦ ?_⟩
  have hrun := spec_ofProblem ht he
  mvcgen [hrun]
  exact SPred.pure_mono fun h ↦ h.exists_plan (h.ne_error hg he) hlength hsolvable hwithin

/-- Opening one door, and then ringing at the other one. -/
def doorsSequence : List Action :=
  [⟨0, ⟨0⟩, [⟨0⟩], "open(a)"⟩, ⟨3, ⟨1⟩, [⟨1⟩], "ring(b)"⟩]

theorem exists_plan_doorsSequence :
    ∃ plan : Plan, plan.makespan ≤ 2 ∧
      (ofProblem (exhaustiveTools 2) Encoding.doors Encoding.doorsRelaxed.grounding
        ⟨.sequential, .grounded⟩).run = some (.ok (.plan plan)) := by
  have hr : RelaxedGrounding.ofProblem Encoding.doors = .ok Encoding.doorsRelaxed :=
    Fallible.eq_ok_get _
  have hlisted : ∀ a ∈ doorsSequence, a ∈ Encoding.doorsRelaxed.grounding.actions := by
    decide +kernel
  have hcheck : Plan.check Encoding.doors (.ofSequence doorsSequence) = .ok () := by
    decide +kernel
  obtain ⟨e, he, _, hfound⟩ := exists_plan_of_check_ofSequence hr .grounded hlisted hcheck
    (meets_exhaustiveTools 2)
  obtain ⟨_, hrun⟩ := hfound (by decide +kernel)
  obtain ⟨plan, hplan, hle⟩ := Id.of_wp_run_eq rfl _ (hrun (by decide) fun _ _ hk ↦ hk)
  exact ⟨plan, hle, hplan⟩

/-! ## A sequence that is not found -/

/-- Going from a place to a place, the only one being where one starts. -/
def stroll : Problem where
  types := ⟨{ kind := "type", entries := [("loc", [])] }⟩
  constants := { kind := "constant", entries := [("a", ⟨0⟩)] }
  predicates := { kind := "predicate", entries := [("at", [⟨0⟩]), ("visited", [⟨0⟩])] }
  parameters := [("from", ⟨0⟩), ("to", ⟨0⟩)]
  operators :=
    { kind := "operator"
      entries := [
        ("move",
          { parameters := [⟨0⟩, ⟨1⟩]
            precondition := .ofConditions [.positive ⟨0⟩ [.param ⟨0⟩]]
            effect := .ofConditions [.negative ⟨0⟩ [.param ⟨0⟩], .positive ⟨0⟩ [.param ⟨1⟩],
              .positive ⟨1⟩ [.param ⟨1⟩]] })] }
  init := [⟨⟨0⟩, [⟨0⟩]⟩]
  goal := [.positive ⟨1⟩ [.const ⟨0⟩]]

/-- The only action moves from the place to itself. -/
def strollRelaxed : RelaxedGrounding :=
  (RelaxedGrounding.ofProblem stroll).toOption.get (by decide +kernel)

/-- **Effects in conflict.** The only action of the stroll is accepted by the checker and leads to
the goal. No formula has a solution, and every search that tries everything ends at its limit. -/
theorem stroll_not_found :
    ∃ e action, RelaxedGrounding.ofProblem stroll = .ok strollRelaxed ∧
      Encoding.ofProblem stroll strollRelaxed.grounding ⟨.sequential, .lifted⟩ = .ok e ∧
      action ∈ strollRelaxed.grounding.actions ∧
      Plan.check stroll (.ofSequence [action]) = .ok () ∧
      (∀ h, ¬e.formula.Solvable h) ∧
      ∀ max, max < wordCount →
        (ofProblem (exhaustiveTools max) stroll strollRelaxed.grounding
          ⟨.sequential, .lifted⟩).run = some (.ok (.boundReached max)) := by
  have hr : RelaxedGrounding.ofProblem stroll = .ok strollRelaxed := Fallible.eq_ok_get _
  obtain ⟨reached, hg⟩ := RelaxedGrounding.exists_isRelaxed hr
  obtain ⟨e, he⟩ := Encoding.exists_ofProblem_of_isRelaxed hg ⟨.sequential, .lifted⟩
  -- the action would have to be consistent, and without it the goal is not reached
  have hnone : ∀ h, ¬e.formula.Solvable h := by
    intro h hsolvable
    obtain ⟨plan, hplan⟩ := (Encoding.solvable_iff hg he).mp hsolvable
    obtain ⟨hrep, _⟩ := (Encoding.mem_plansAt_iff hg he).mp hplan
    have hidle := Plan.check_idle_zero (hrep.entries_eq_nil (by decide +kernel)) hrep.accepted
    revert hidle
    decide +kernel
  refine ⟨e, ⟨0, ⟨0⟩, [⟨0⟩, ⟨0⟩], "move(a, a)"⟩, hr, he, by decide +kernel, by decide +kernel,
    hnone, fun max hmax ↦ ?_⟩
  obtain ⟨answer, hrun⟩ : ∃ answer, (ofProblem (exhaustiveTools max) stroll
      strollRelaxed.grounding ⟨.sequential, .lifted⟩).run = answer := ⟨_, rfl⟩
  have hout := Id.of_wp_run_eq hrun _ (spec_ofProblem (meets_exhaustiveTools max) he)
  rw [hrun]
  cases hout.limited (fun _ ↦ Iff.rfl) hmax with
  | plan least le => exact absurd least.1 (hnone _)
  | undecodable least le => exact absurd least.1 (hnone _)
  | boundReached unsolvable => rfl

end LiftedPlanning.Search
