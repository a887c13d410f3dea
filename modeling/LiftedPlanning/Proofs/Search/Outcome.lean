import Mathlib
import LiftedPlanning.Search.Basic
import LiftedPlanning.Search.Limits
import LiftedPlanning.Proofs.Cnf.Verdict
import LiftedPlanning.Proofs.Encoding.Plans

/-!
# Outcomes of searches

A search asks a solver about one horizon after the other, starting with 0. If the solver is right,
then what is found is decoded from a solution at the least horizon that has one, and where the
search ends at its bounds no horizon up to there has any.

The loop is proved correct once, for all monads with weakest preconditions. Its invariant speaks of
the store, which holds the clauses of the horizon and no assumption of the horizons before it, and
of what the verdicts and the bounds have said so far.

## Limits

The bounds are a predicate on numbers of steps. If it is a limit, every search ends, and the horizon
it ends with is known. Without one a search goes on as long as horizons are words.
-/

set_option mvcgen.warning false

open Std.Do

namespace LiftedPlanning

open Cnf (Assignment)

/-! ## Limited steps -/

namespace SearchLimits

/-- Nothing but the number of steps is limited. -/
structure OnlySteps (limits : SearchLimits) (max : Nat) : Prop where
  steps : limits.maxSteps = some max
  searchTime : limits.maxSearchTime = none
  totalTime : limits.maxTotalTime = none

theorem OnlySteps.allows_iff {limits : SearchLimits} {max : Nat} (h : limits.OnlySteps max)
    {now k : Nat} : limits.allows false now k = true ↔ k ≤ max := by
  by_cases hk : max < k
  · simp [allows, exceeded?, h.steps, Option.filter, hk]
  · simp [allows, exceeded?, h.steps, h.searchTime, h.totalTime, Option.filter, hk,
      Nat.le_of_not_lt hk]

end SearchLimits

/-! ## Calls to the solver -/

namespace Unrolling

variable {f : ReachabilityFormula} {u : Unrolling} {model : Assignment}

/-- What a solver finds under the goal of the horizon is a solution, whatever was assumed before. -/
theorem Holds.solution_iff (h : u.Holds f) :
    (u.store.assume (u.goal f)).Solution (u.goal f) model ↔ f.Solves u.horizon model := by
  have hclauses : (u.store.assume (u.goal f)).clauses = f.unrolled u.horizon := h
  rw [Cnf.Store.Solution, hclauses, goal, ReachabilityFormula.Solves]

theorem Holds.not_solvable (h : u.Holds f)
    (hno : ∀ model, ¬(u.store.assume (u.goal f)).Solution (u.goal f) model) :
    ¬f.Solvable u.horizon := by
  rintro ⟨model, hsolves⟩
  exact hno model (h.solution_iff.mpr hsolves)

end Unrolling

namespace Search

/-! ## What is asked of the tools -/

variable {m : Type → Type} [Monad m] {ps : PostShape} [WPMonad m ps]

/-- The solver is right, the bounds are a predicate on numbers of steps, and nothing is thrown. -/
structure Meets (tools : SearchTools m) (within : Nat → Prop) : Prop where
  decide : ∀ store goal, ⦃⌜True⌝⦄ tools.decide store goal ⦃⇓ v => ⌜v.IsRight store goal⌝⦄
  allows : ∀ k, ⦃⌜True⌝⦄ tools.allows k ⦃⇓ b => ⌜b = true ↔ within k⌝⦄
  report : ∀ event, ⦃⌜True⌝⦄ tools.report event ⦃⇓ _ => ⌜True⌝⦄

/-! ## Outcomes -/

/-- What the end of a search through the horizons below `limit` says about the formula. -/
inductive Outcome (within : Nat → Prop) (g : Grounding) (e : Encoding) (limit : Nat) :
    Option (Except SearchError PlanningResult) → Prop
  | plan {h : Nat} {model : Assignment} {plan : Plan}
      (least : IsLeast {k | e.formula.Solvable k} h) (allowed : ∀ k, 1 ≤ k → k ≤ h → within k)
      (solves : e.formula.Solves h model) (decoded : Plan.decode e.layout g model h = .ok plan) :
      Outcome within g e limit (some (.ok (.plan plan)))
  | undecodable {h : Nat} {model : Assignment} {cause : DecodingError}
      (least : IsLeast {k | e.formula.Solvable k} h) (allowed : ∀ k, 1 ≤ k → k ≤ h → within k)
      (solves : e.formula.Solves h model)
      (decoded : Plan.decode e.layout g model h = .error cause) :
      Outcome within g e limit (some (.error (.decoding cause)))
  | boundReached {k : Nat} (allowed : ∀ i, 1 ≤ i → i ≤ k → within i) (refused : ¬within (k + 1))
      (unsolvable : ∀ h ≤ k, ¬e.formula.Solvable h) :
      Outcome within g e limit (some (.ok (.boundReached k)))
  | unfinished (allowed : ∀ k, 1 ≤ k → k ≤ limit → within k)
      (unsolvable : ∀ h < limit, ¬e.formula.Solvable h) : Outcome within g e limit none

/-- What the end of a search with a limit on the number of steps says about the formula. Every such
search has a result. -/
inductive LimitedOutcome (e : Encoding) (max : Nat) :
    Option (Except SearchError PlanningResult) → Prop
  | plan {plan : Plan} (least : IsLeast {k | e.formula.Solvable k} plan.makespan)
      (le : plan.makespan ≤ max) : LimitedOutcome e max (some (.ok (.plan plan)))
  | undecodable {h : Nat} {cause : DecodingError} (least : IsLeast {k | e.formula.Solvable k} h)
      (le : h ≤ max) : LimitedOutcome e max (some (.error (.decoding cause)))
  | boundReached (unsolvable : ∀ h ≤ max, ¬e.formula.Solvable h) :
      LimitedOutcome e max (some (.ok (.boundReached max)))

variable {tools : SearchTools m} {within : Nat → Prop} {p : Problem} {g : Grounding}
  {strategy : Strategy} {e : Encoding} {limit max : Nat}
  {r : Option (Except SearchError PlanningResult)}

/-- A predicate that is a limit determines where the search ends. -/
theorem Outcome.limited (h : Outcome within g e limit r) (hwithin : ∀ k, within k ↔ k ≤ max)
    (hmax : max < limit) : LimitedOutcome e max r := by
  obtain rfl : within = (· ≤ max) := funext fun k ↦ propext (hwithin k)
  have hle : ∀ {k : Nat}, (∀ i, 1 ≤ i → i ≤ k → i ≤ max) → k ≤ max := by
    intro k hk
    rcases Nat.eq_zero_or_pos k with rfl | hpos
    · exact Nat.zero_le max
    · exact hk k hpos (Nat.le_refl k)
  cases h with
  | plan least allowed solves decoded =>
    obtain rfl := Plan.makespan_of_decode decoded
    exact .plan least (hle allowed)
  | undecodable least allowed solves decoded => exact .undecodable least (hle allowed)
  | @boundReached k allowed refused unsolvable =>
    have hk := hle allowed
    obtain rfl : k = max := by omega
    exact .boundReached unsolvable
  | unfinished allowed unsolvable =>
    have hlimit := hle allowed
    omega

theorem Outcome.ne_error {reached : Set GroundAtom} (h : Outcome within g e limit r)
    (hg : RelaxedGrounding.IsRelaxed p g reached)
    (he : Encoding.ofProblem p g strategy = .ok e) (cause : SearchError) :
    r ≠ some (.error cause) := by
  rintro rfl
  obtain ⟨os, hos⟩ := Encoding.exists_isEncoding he
  cases h with
  | undecodable least allowed solves decoded =>
    obtain ⟨plan, hplan⟩ := Encoding.exists_decode_of_models hg hos solves.1
    rw [decoded] at hplan
    cases hplan

/-! ## The invariant -/

/-- Where a search is when it comes to a horizon. -/
structure Reaches (within : Nat → Prop) (f : ReachabilityFormula) (u : Unrolling) : Prop where
  holds : u.Holds f
  allowed : ∀ k, 1 ≤ k → k ≤ u.horizon → within k
  unsolvable : ∀ h < u.horizon, ¬f.Solvable h

section Invariant

variable {f : ReachabilityFormula} {u : Unrolling}

theorem reaches_start (within : Nat → Prop) (f : ReachabilityFormula) :
    Reaches within f (.start f .empty) := by
  refine ⟨Unrolling.holds_start f, fun k hk hle ↦ ?_, fun h hlt ↦ ?_⟩
  · have hzero : (Unrolling.start f .empty).horizon = 0 := rfl
    omega
  · exact absurd hlt (Nat.not_lt_zero h)

theorem Reaches.isLeast (h : Reaches within f u) (hs : f.Solvable u.horizon) :
    IsLeast {k | f.Solvable k} u.horizon := by
  refine ⟨hs, fun k hk ↦ ?_⟩
  by_contra hlt
  exact h.unsolvable k (Nat.lt_of_not_le hlt) hk

theorem Reaches.unsolvable_le (h : Reaches within f u) (hs : ¬f.Solvable u.horizon) :
    ∀ k ≤ u.horizon, ¬f.Solvable k := by
  intro k hk
  rcases Nat.lt_or_eq_of_le hk with hlt | rfl
  · exact h.unsolvable k hlt
  · exact hs

theorem Reaches.next (h : Reaches within f u) (hs : ¬f.Solvable u.horizon)
    (hw : within (u.horizon + 1)) :
    Reaches within f (.extend f { u with store := u.store.assume (u.goal f) }) := by
  refine ⟨(h.holds.assume _).extend, fun k hk hle ↦ ?_, fun k hlt ↦ ?_⟩
  · rcases Nat.le_succ_iff.mp hle with hle | rfl
    · exact h.allowed k hk hle
    · exact hw
  · exact h.unsolvable_le hs k (Nat.le_of_lt_succ hlt)

end Invariant

/-! ## Runs -/

/-- **A run preserves the invariant up to its end.** -/
theorem spec_run (ht : Meets tools within) {fuel : Nat} {u : Unrolling}
    (hu : Reaches within e.formula u) (hlimit : u.horizon + fuel = limit) :
    ⦃⌜True⌝⦄ run tools g e fuel u ⦃⇓ r => ⌜Outcome within g e limit r⌝⦄ := by
  obtain ⟨hdecide, hallows, hreport⟩ := ht
  -- the horizons still to come are the fuel; the next one is reached as this one was
  induction fuel generalizing u with
  | zero =>
    rw [run]
    mvcgen
    obtain rfl : u.horizon = limit := hlimit
    exact SPred.pure_intro (.unfinished hu.allowed hu.unsolvable)
  | succ fuel ih =>
    rw [run]
    mvcgen [hdecide, hallows, hreport, ih]
    -- a model that cannot be decoded
    case vc1 =>
      rename_i model _ cause hd hright
      have hsolves := hu.holds.solution_iff.mp hright
      exact SPred.pure_intro
        (.undecodable (hu.isLeast ⟨model, hsolves⟩) hu.allowed hsolves hd)
    -- a plan
    case vc2 =>
      rename_i model _ plan hd hright _
      have hsolves := hu.holds.solution_iff.mp hright
      exact SPred.pure_intro (.plan (hu.isLeast ⟨model, hsolves⟩) hu.allowed hsolves hd)
    -- the next horizon
    case vc3 =>
      rename_i hright _ _ _ _ hb
      exact fun hiff ↦ hu.next (hu.holds.not_solvable hright) (hiff.mp hb)
    case vc4 =>
      intro _
      exact (Nat.succ_add_eq_add_succ _ _).trans hlimit
    -- the bounds
    case vc5 =>
      rename_i hright _ _ _ _ hb hiff
      have hno := hu.holds.not_solvable hright
      exact SPred.pure_intro
        (.boundReached hu.allowed (fun hw ↦ hb (hiff.mpr hw)) (hu.unsolvable_le hno))

theorem spec_ofProblem (ht : Meets tools within)
    (he : Encoding.ofProblem p g strategy = .ok e) :
    ⦃⌜True⌝⦄ ofProblem tools p g strategy ⦃⇓ r => ⌜Outcome within g e horizonLimit r⌝⦄ := by
  rw [ofProblem, he]
  exact spec_run ht (reaches_start within e.formula) (Nat.zero_add _)

/-- **Outcome of a search.** With a right solver and any bounds, a search that has a result ends at
the least horizon with a solution, which is decoded, or at the bounds, no horizon up to there having
a solution. If the bounds are a limit on the number of steps, the search has a result: a plan of the
least number of steps, within the limit, or the limit itself if there is none. A solution may fail
to be decoded, but not over a relaxed grounding. -/
theorem ofProblem_outcome (ht : Meets tools within)
    (he : Encoding.ofProblem p g strategy = .ok e) :
    ⦃⌜True⌝⦄ ofProblem tools p g strategy
    ⦃⇓ r => ⌜Outcome within g e horizonLimit r ∧
      (∀ limits max, SearchLimits.OnlySteps limits max → max < wordCount →
        ∀ clock : Nat → Nat, (∀ k, within k ↔ limits.allows false (clock k) k = true) →
          LimitedOutcome e max r) ∧
      ∀ rounds, RelaxedGrounding.ofProblem p = .ok ⟨g, rounds⟩ →
        ∀ cause, r ≠ some (.error cause)⌝⦄ := by
  have hrun := spec_ofProblem ht he
  mvcgen [hrun]
  refine SPred.pure_mono fun h ↦ ⟨h, ?_, ?_⟩
  · intro limits max hlimits hmax clock hwithin
    exact h.limited (fun k ↦ (hwithin k).trans hlimits.allows_iff) hmax
  · intro rounds hr cause
    obtain ⟨reached, hg⟩ := RelaxedGrounding.exists_isRelaxed hr
    exact h.ne_error hg he cause

/-! ### A search that tries everything -/

/-- The tools of a search that tries everything, up to a number of steps. -/
def exhaustiveTools (max : Nat) : SearchTools Id where
  decide store goal := pure (Cnf.Exhaustive.solve store goal)
  allows k := pure (SearchLimits.allows { maxSteps := some max } false 0 k)
  report _ := pure ()

theorem meets_exhaustiveTools (max : Nat) : Meets (exhaustiveTools max) (· ≤ max) := by
  refine ⟨fun store goal ↦ ?_, fun k ↦ ?_, fun event ↦ ?_⟩
  · have hright := Cnf.Exhaustive.isRight_solve store goal
    mvcgen [exhaustiveTools]
  · have hlimits : SearchLimits.OnlySteps { maxSteps := some max } max := ⟨rfl, rfl, rfl⟩
    mvcgen [exhaustiveTools]
    exact hlimits.allows_iff
  · mvcgen [exhaustiveTools]

/-- At most one step is needed to open one door and ring at the other one. -/
theorem ofProblem_outcome_doors :
    ∃ plan : Plan, plan.makespan ≤ 1 ∧
      (ofProblem (exhaustiveTools 1) Encoding.doors Encoding.doorsRelaxed.grounding
        ⟨.parallel, .lifted⟩).run = some (.ok (.plan plan)) := by
  have hr : RelaxedGrounding.ofProblem Encoding.doors = .ok Encoding.doorsRelaxed :=
    Fallible.eq_ok_get _
  obtain ⟨reached, hg⟩ := RelaxedGrounding.exists_isRelaxed hr
  obtain ⟨e, he⟩ := Encoding.exists_ofProblem_of_isRelaxed hg ⟨.parallel, .lifted⟩
  have hsolvable : e.formula.Solvable 1 := (Encoding.solvable_iff hg he).mpr
    ⟨Encoding.doorsRelaxedPlan, (Encoding.mem_plansAt_iff hg he).mpr ⟨by decide +kernel, rfl⟩⟩
  have hlimits : SearchLimits.OnlySteps { maxSteps := some 1 } 1 := ⟨rfl, rfl, rfl⟩
  obtain ⟨r, hrun⟩ : ∃ r, (ofProblem (exhaustiveTools 1) Encoding.doors
      Encoding.doorsRelaxed.grounding ⟨.parallel, .lifted⟩).run = r := ⟨_, rfl⟩
  obtain ⟨_, hlimited, hnoerror⟩ :=
    Id.of_wp_run_eq hrun _ (ofProblem_outcome (meets_exhaustiveTools 1) he)
  rw [hrun]
  have hend := hlimited _ 1 hlimits (by decide) (fun _ ↦ 0) fun k ↦ hlimits.allows_iff.symm
  cases hend with
  | plan least le => exact ⟨_, le, rfl⟩
  | undecodable least le => exact absurd rfl (hnoerror _ hr _)
  | boundReached unsolvable => exact absurd hsolvable (unsolvable 1 (Nat.le_refl 1))

end Search

end LiftedPlanning
