import LiftedPlanning.Proofs.Encoding.Soundness
import LiftedPlanning.Proofs.Grounding.Relaxed

/-!
# Models of relaxed groundings

Over a relaxed grounding the formula speaks of single constants and single conditions, never of
actions. Still, whatever runs in a block is an action of the grounding. The atoms that are true in a
block have been reached by the grounder, which is an induction on the step: an atom that becomes
true is an effect of something that runs, the preconditions of which are true, hence reached. So no
model fails to be decoded.
-/

namespace LiftedPlanning.Encoding

open Cnf (Assignment)

variable {p : Problem} {g : Grounding} {reached : Set GroundAtom} {mode : EligibilityMode}
  {semantics : StepSemantics} {m m' : Assignment} {op : OperatorId} {args : List ConstantId}

/-- Only atoms that were reached are true. -/
def OnlyReached (g : Grounding) (reached : Set GroundAtom) (l : Layout) (m : Assignment) : Prop :=
  ∀ atom id, g.atomId? atom = some id → m.satisfies (l.signed id false) = true → atom ∈ reached

theorem preconditions_reached (hb : IsBlock p g semantics (layoutOf p g mode) m)
    (hm : OnlyReached g reached (layoutOf p g mode) m)
    (hr : (layoutOf p g mode).Runs m op args) :
    ∀ atom, p.HasCondition op args .precondition atom false → atom ∈ reached := by
  intro atom hc
  obtain ⟨id, hid⟩ := hb.known _ _ _ atom _ hr hc
  exact hm atom id hid (hb.precondition _ _ atom _ id hr hc hid)

section Relaxed

variable (hg : RelaxedGrounding.IsRelaxed p g reached)

include hg

theorem isCandidate_of_eligible {schema : Operator} (hop : p.operator? op = some schema)
    (hargs : args ∈ combinations ((eligibility p g mode).setsOf op)) :
    RelaxedGrounding.IsCandidate p op args := by
  refine ⟨schema, hop, ?_⟩
  cases mode with
  | lifted => exact hargs
  | grounded =>
    obtain ⟨hlen, hmem⟩ := Eligibility.mem_combinations_setsOf_iff.mp hargs
    rw [arity_eligibility hop] at hlen
    refine Eligibility.mem_combinations_setsOf_iff.mpr
      ⟨hlen.trans (Eligibility.arity_byType hop).symm, fun position c hc ↦ ?_⟩
    obtain ⟨_, _, a, ha, rfl, hac⟩ :=
      (Eligibility.mem_eligible_byReachability_iff hop).mp (hmem position c hc)
    obtain ⟨_, _, hcomb⟩ := hg.candidate a ha
    exact (Eligibility.mem_combinations_setsOf_iff.mp hcomb).2 position c hac

/-- **What runs is listed.** -/
theorem exists_action_of_runs (hb : IsBlock p g semantics (layoutOf p g mode) m)
    (hm : OnlyReached g reached (layoutOf p g mode) m)
    (hop : op.index < (layoutOf p g mode).operatorCount)
    (hr : (layoutOf p g mode).Runs m op args) :
    ∃ a ∈ g.actions, a.operator = op ∧ a.args = args := by
  rw [operatorCount_layoutOf] at hop
  obtain ⟨schema, hschema⟩ := Problem.exists_operator? hop
  exact hg.listed op args (isCandidate_of_eligible hg hschema (mem_combinations_of_runs hr))
    (preconditions_reached hb hm hr)

theorem OnlyReached.next (hb : IsBlock p g semantics (layoutOf p g mode) m)
    (ht : IsTransition p g (layoutOf p g mode) m m')
    (hm : OnlyReached g reached (layoutOf p g mode) m) :
    OnlyReached g reached (layoutOf p g mode) m' := by
  intro atom id hid hs
  rcases ht.frame atom false id hid with hnow | hother | ⟨op, args, hr, hc⟩
  · exact hm atom id hid hnow
  · rw [← Layout.negate_signed] at hother
    exact absurd hother (Assignment.not_satisfies_negate hs)
  · have ⟨_, hop, _⟩ := hc
    exact hg.closed op args (isCandidate_of_eligible hg hop (mem_combinations_of_runs hr))
      (preconditions_reached hb hm hr) atom hc

theorem onlyReached_of_isRun {block : Nat → Assignment} {horizon k : Nat}
    (hrun : IsRun p g semantics (layoutOf p g mode) block horizon) (hk : k ≤ horizon) :
    OnlyReached g reached (layoutOf p g mode) (block k) := by
  induction k with
  | zero =>
    intro atom id hid hs
    exact hg.initial atom ((hrun.initial.hasSign hid hs).mpr rfl)
  | succ k ih =>
    have hlt : k < horizon := Nat.lt_of_succ_le hk
    exact (ih (Nat.le_of_lt hlt)).next hg (hrun.isBlock k (Nat.le_of_lt hlt))
      (hrun.isTransition k hlt)

theorem exists_ofProblem_of_isRelaxed (strategy : Strategy) :
    ∃ e, ofProblem p g strategy = .ok e :=
  exists_ofProblem hg.goal hg.simple strategy

end Relaxed

theorem exists_runs_of_models {strategy : Strategy} {e : Encoding} {os : List Occurrence}
    {horizon k : Nat} (hg : RelaxedGrounding.IsRelaxed p g reached)
    (he : IsEncoding p g strategy e os) (hm : m.Models (e.formula.unrolled horizon))
    (hk : k < horizon) (hop : op.index < e.layout.operatorCount)
    (ha : (e.formula.block m k).satisfies (e.layout.active op) = true) :
    ∃ args, e.layout.Runs (e.formula.block m k) op args ∧
      ∃ a ∈ g.actions, a.operator = op ∧ a.args = args := by
  have hrun := he.isRun_of_models hm
  rw [he.layout] at hrun hop ha ⊢
  have hblock := hrun.isBlock k (Nat.le_of_lt hk)
  obtain ⟨args, hr⟩ := hblock.runs op hop ha
  have hreached := onlyReached_of_isRun hg hrun (Nat.le_of_lt hk)
  exact ⟨args, hr, exists_action_of_runs hg hblock hreached hop hr⟩

/-! ## Decoding -/

/-- The doors with all the atoms and actions that the grounder finds. -/
def doorsRelaxed : RelaxedGrounding :=
  (RelaxedGrounding.ofProblem doors).toOption.get (by decide +kernel)

def doorsRelaxedEncoding : Encoding :=
  (ofProblem doors doorsRelaxed.grounding ⟨.sequential, .grounded⟩).toOption.get (by decide +kernel)

/-- A model of two blocks that rings at the second door and misses the goal. -/
def doorsRelaxedModel : Assignment :=
  ⟨#[false, true, false, false, false, true, true, false, false, false,
    false, false, false, false, false, false, true, false, true, false].map some⟩

/-- **Decoding never fails.** A problem that the relaxed grounder accepts can be encoded, and in
every model of the unrolled formula, whether it meets the goal or not, the active operators of the
steps select one constant at each position and are actions of the grounding. The plan can be
decoded, it has these actions at these steps and no others, and its entries can be appended one by
one. -/
theorem exists_decode {r : RelaxedGrounding} (hr : RelaxedGrounding.ofProblem p = .ok r)
    (strategy : Strategy) :
    ∃ e, ofProblem p r.grounding strategy = .ok e ∧
      ∀ horizon m, m.Models (e.formula.unrolled horizon) →
        (∀ k < horizon, ∀ op ∈ e.layout.operators,
          (m.after (k * e.layout.size)).satisfies (e.layout.active op) = true →
            ∃ args, e.layout.Runs (m.after (k * e.layout.size)) op args ∧
              ∃ a ∈ r.grounding.actions, a.operator = op ∧ a.args = args) ∧
        ∃ plan, Plan.decode e.layout r.grounding m horizon = .ok plan ∧
          (∀ k a, a ∈ plan.actionsAt k ↔ k < horizon ∧ a.operator ∈ e.layout.operators ∧
            e.layout.Runs (m.after (k * e.layout.size)) a.operator a.args ∧
              r.grounding.action? a.operator a.args = some a) ∧
          plan.entries.foldlM (fun q entry ↦ q.push? entry.1 entry.2) (.idle horizon) =
            some plan := by
  obtain ⟨reached, hg⟩ := RelaxedGrounding.exists_isRelaxed hr
  obtain ⟨e, he⟩ := exists_ofProblem_of_isRelaxed hg strategy
  refine ⟨e, he, fun horizon m hm ↦ ?_⟩
  obtain ⟨os, hos⟩ := exists_isEncoding he
  have hruns : ∀ k < horizon, ∀ op ∈ e.layout.operators,
      (m.after (k * e.layout.size)).satisfies (e.layout.active op) = true →
        ∃ args, e.layout.Runs (m.after (k * e.layout.size)) op args ∧
          ∃ a ∈ r.grounding.actions, a.operator = op ∧ a.args = args := by
    intro k hk op hop ha
    rw [← hos.block_eq] at ha ⊢
    exact exists_runs_of_models hg hos hm hk (Layout.mem_operators_iff.mp hop) ha
  refine ⟨hruns, ?_⟩
  obtain ⟨plan, hplan⟩ := Plan.exists_decode_of_runs hruns
  exact ⟨plan, hplan, fun k a ↦ Plan.mem_actionsAt_iff_of_decode hplan,
    Plan.foldlM_push?_of_decode hplan⟩

theorem exists_decode_doors :
    doorsRelaxedModel.Models (doorsRelaxedEncoding.formula.unrolled 1) ∧
      ∃ plan, Plan.decode doorsRelaxedEncoding.layout doorsRelaxed.grounding doorsRelaxedModel 1 =
          .ok plan ∧
        (∀ a, a ∈ plan.actionsAt 0 ↔ a.operator ∈ doorsRelaxedEncoding.layout.operators ∧
          doorsRelaxedEncoding.layout.Runs doorsRelaxedModel a.operator a.args ∧
            doorsRelaxed.grounding.action? a.operator a.args = some a) ∧
        plan.entries.foldlM (fun q entry ↦ q.push? entry.1 entry.2) (.idle 1) = some plan := by
  have hm : doorsRelaxedModel.Models (doorsRelaxedEncoding.formula.unrolled 1) := by decide +kernel
  obtain ⟨e, he, h⟩ := exists_decode (r := doorsRelaxed) (Fallible.eq_ok_get _)
    ⟨.sequential, .grounded⟩
  obtain rfl : doorsRelaxedEncoding = e := Except.ok.inj ((Fallible.eq_ok_get _).symm.trans he)
  obtain ⟨plan, hplan, hactions, hpush⟩ := (h 1 _ hm).2
  exact ⟨hm, plan, hplan, fun a ↦ (hactions 0 a).trans (by simp), hpush⟩

end LiftedPlanning.Encoding
