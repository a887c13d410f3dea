import LiftedPlanning.Proofs.Encoding.Reachability
import LiftedPlanning.Proofs.Plan.Serialization
import LiftedPlanning.Proofs.Valuation

/-!
# Plans have models

A plan gives every fact of every step a truth value: what the actions of the step say, and which
atoms hold before it. If the arguments of the actions are eligible and the atoms that they mention
are known, then the blocks of these values are a run, so that they satisfy the unrolled formula.
Over a relaxed grounding, this is the case for the plans that consist of its actions.
-/

namespace LiftedPlanning.Encoding

open Cnf (Assignment)

/-- A plan that can be represented: it is accepted, its entries are in order, no step holds two
actions of an operator, and no step gets in its own way. -/
structure Representable (p : Problem) (g : Grounding) (semantics : StepSemantics) (plan : Plan) :
    Prop where
  accepted : plan.check p = .ok ()
  listed : ∀ entry ∈ plan.entries, entry.2 ∈ g.actions
  within : ∀ entry ∈ plan.entries, entry.1 < plan.makespan
  ordered : plan.entries.Pairwise fun x y ↦
    x.1 < y.1 ∨ x.1 = y.1 ∧ x.2.operator.index ≤ y.2.operator.index
  single : plan.entries.Pairwise fun x y ↦ x.1 = y.1 → x.2.operator ≠ y.2.operator
  sequential : semantics = .sequential → plan.entries.Pairwise fun x y ↦ x.1 ≠ y.1
  consistent : ∀ k < plan.makespan, Plan.Consistent p (plan.actionsAt k)
  independent : semantics = .parallel → ∀ k < plan.makespan, ∀ a ∈ plan.actionsAt k,
    ∀ b ∈ plan.actionsAt k, a.operator ≠ b.operator → Plan.Independent p a b

instance (p : Problem) (g : Grounding) (semantics : StepSemantics) (plan : Plan) :
    Decidable (Representable p g semantics plan) :=
  decidable_of_iff
    (plan.check p = .ok () ∧ (∀ entry ∈ plan.entries, entry.2 ∈ g.actions) ∧
      (∀ entry ∈ plan.entries, entry.1 < plan.makespan) ∧
      (plan.entries.Pairwise fun x y ↦
        x.1 < y.1 ∨ x.1 = y.1 ∧ x.2.operator.index ≤ y.2.operator.index) ∧
      (plan.entries.Pairwise fun x y ↦ x.1 = y.1 → x.2.operator ≠ y.2.operator) ∧
      (semantics = .sequential → plan.entries.Pairwise fun x y ↦ x.1 ≠ y.1) ∧
      (∀ k < plan.makespan, Plan.Consistent p (plan.actionsAt k)) ∧
      (semantics = .parallel → ∀ k < plan.makespan, ∀ a ∈ plan.actionsAt k,
        ∀ b ∈ plan.actionsAt k, a.operator ≠ b.operator → Plan.Independent p a b))
    ⟨fun ⟨ha, hl, hw, ho, hs, hseq, hc, hi⟩ ↦ ⟨ha, hl, hw, ho, hs, hseq, hc, hi⟩,
      fun ⟨ha, hl, hw, ho, hs, hseq, hc, hi⟩ ↦ ⟨ha, hl, hw, ho, hs, hseq, hc, hi⟩⟩

variable {p : Problem} {g : Grounding} {mode : EligibilityMode} {semantics : StepSemantics}
  {plan : Plan} {k : Nat} {a b : Action} {op : OperatorId}

theorem eq_of_operator_eq
    (hsingle : plan.entries.Pairwise fun x y ↦ x.1 = y.1 → x.2.operator ≠ y.2.operator)
    (ha : a ∈ plan.actionsAt k) (hb : b ∈ plan.actionsAt k) (he : a.operator = b.operator) :
    a = b := by
  by_contra hne
  have : Std.Symm fun x y : Nat × Action ↦ x.1 = y.1 → x.2.operator ≠ y.2.operator :=
    ⟨fun _ _ hxy hstep ↦ (hxy hstep.symm).symm⟩
  refine hsingle.forall (Plan.mem_actionsAt_iff.mp ha) (Plan.mem_actionsAt_iff.mp hb) ?_ rfl he
  exact fun heq ↦ hne (Prod.mk.inj heq).2

namespace Representable

variable (h : Representable p g semantics plan)

include h

theorem pairwise_before : plan.entries.Pairwise Plan.Before := by
  refine (h.ordered.and h.single).imp fun {x y} ⟨hle, hne⟩ ↦ hle.imp_right fun ⟨hstep, hop⟩ ↦ ?_
  exact ⟨hstep, Nat.lt_of_le_of_ne hop fun he ↦ hne hstep (Handle.index_injective he)⟩

theorem lt_makespan (ha : a ∈ plan.actionsAt k) : k < plan.makespan :=
  h.within _ (Plan.mem_actionsAt_iff.mp ha)

theorem mem_actions (ha : a ∈ plan.actionsAt k) : a ∈ g.actions :=
  h.listed _ (Plan.mem_actionsAt_iff.mp ha)

theorem eq_of_operator_eq (ha : a ∈ plan.actionsAt k) (hb : b ∈ plan.actionsAt k)
    (he : a.operator = b.operator) : a = b :=
  Encoding.eq_of_operator_eq h.single ha hb he

end Representable

/-- A plan that the clauses can express, whether or not the grounding lists its actions: the
operators are declared, their arguments are eligible, and the atoms that they mention are known. -/
structure Expressible (p : Problem) (g : Grounding) (strategy : Strategy) (plan : Plan) : Prop where
  accepted : plan.check p = .ok ()
  within : ∀ entry ∈ plan.entries, entry.1 < plan.makespan
  declared : ∀ entry ∈ plan.entries, ∃ schema, p.operator? entry.2.operator = some schema
  eligible : ∀ entry ∈ plan.entries, entry.2.args ∈
    combinations ((layoutOf p g strategy.eligibility).eligibility.setsOf entry.2.operator)
  known : ∀ entry ∈ plan.entries, ∀ role atom negated,
    p.HasCondition entry.2.operator entry.2.args role atom negated → atom ∈ g.atoms
  single : plan.entries.Pairwise fun x y ↦ x.1 = y.1 → x.2.operator ≠ y.2.operator
  sequential : strategy.semantics = .sequential → plan.entries.Pairwise fun x y ↦ x.1 ≠ y.1
  consistent : ∀ k < plan.makespan, Plan.Consistent p (plan.actionsAt k)
  independent : strategy.semantics = .parallel → ∀ k < plan.makespan, ∀ a ∈ plan.actionsAt k,
    ∀ b ∈ plan.actionsAt k, a.operator ≠ b.operator → Plan.Independent p a b

namespace Expressible

variable {strategy : Strategy} (h : Expressible p g strategy plan)

include h

theorem lt_makespan (ha : a ∈ plan.actionsAt k) : k < plan.makespan :=
  h.within _ (Plan.mem_actionsAt_iff.mp ha)

theorem index_lt (ha : a ∈ plan.actionsAt k) :
    a.operator.index < (layoutOf p g mode).operatorCount := by
  obtain ⟨schema, hop⟩ := h.declared _ (Plan.mem_actionsAt_iff.mp ha)
  exact index_lt_operatorCount hop

theorem eq_of_operator_eq (ha : a ∈ plan.actionsAt k) (hb : b ∈ plan.actionsAt k)
    (he : a.operator = b.operator) : a = b :=
  Encoding.eq_of_operator_eq h.single ha hb he

theorem eq_of_sequential (hseq : strategy.semantics = .sequential) (ha : a ∈ plan.actionsAt k)
    (hb : b ∈ plan.actionsAt k) : a = b := by
  by_contra hne
  have : Std.Symm fun x y : Nat × Action ↦ x.1 ≠ y.1 := ⟨fun _ _ hxy ↦ hxy.symm⟩
  refine (h.sequential hseq).forall (Plan.mem_actionsAt_iff.mp ha) (Plan.mem_actionsAt_iff.mp hb) ?_
    rfl
  exact fun heq ↦ hne (Prod.mk.inj heq).2

theorem applicable (ha : a ∈ plan.actionsAt k) : Plan.Applicable p (plan.factsAt p k) a :=
  (Plan.check_eq_ok_iff.mp h.accepted).1 k (h.lt_makespan ha) a ha

end Expressible

/-! ## The values of a plan -/

/-- The facts of a step of a plan. -/
def IsTrueAt (p : Problem) (g : Grounding) (plan : Plan) (k : Nat) : Layout.Fact → Prop
  | .active op => ∃ a ∈ plan.actionsAt k, a.operator = op
  | .selected op position c => ∃ a ∈ plan.actionsAt k, a.operator = op ∧ a.args[position]? = some c
  | .holds id => ∃ atom ∈ plan.factsAt p k, g.atomId? atom = some id

open Classical in
/-- The assignment that a plan stands for. -/
noncomputable def valuationOf (p : Problem) (g : Grounding) (mode : EligibilityMode) (plan : Plan) :
    Assignment :=
  (layoutOf p g mode).valuation plan.makespan fun k f ↦ decide (IsTrueAt p g plan k f)

noncomputable def blockOf (p : Problem) (g : Grounding) (mode : EligibilityMode) (plan : Plan)
    (k : Nat) : Assignment :=
  (valuationOf p g mode plan).after (k * (layoutOf p g mode).size)

section Values

variable (hk : k ≤ plan.makespan)

include hk

theorem satisfies_blockOf_iff {literal : Cnf.Literal} {f : Layout.Fact}
    (hf : (layoutOf p g mode).facts[literal.var]? = some f) :
    (blockOf p g mode plan k).satisfies literal = true ↔
      (IsTrueAt p g plan k f ↔ literal.positive = true) := by
  rw [blockOf, valuationOf, Layout.satisfies_valuation_iff hk hf, Bool.eq_iff_iff]
  simp only [decide_eq_true_eq]

theorem satisfies_active_iff (hop : op.index < (layoutOf p g mode).operatorCount) :
    (blockOf p g mode plan k).satisfies ((layoutOf p g mode).active op) = true ↔
      ∃ a ∈ plan.actionsAt k, a.operator = op :=
  (satisfies_blockOf_iff hk (Layout.fact_active hop)).trans (iff_true_right rfl)

theorem satisfies_choice_iff (hop : op.index < (layoutOf p g mode).operatorCount) {position : Nat}
    {choice : ConstantId × Cnf.Literal} (hc : choice ∈ (layoutOf p g mode).choices op position) :
    (blockOf p g mode plan k).satisfies choice.2 = true ↔
      ∃ a ∈ plan.actionsAt k, a.operator = op ∧ a.args[position]? = some choice.1 := by
  obtain ⟨i, hi, he⟩ := Layout.mem_choices_iff.mp hc
  rw [he]
  exact (satisfies_blockOf_iff hk (Layout.fact_selected hop hi)).trans (iff_true_right rfl)

theorem agrees_blockOf :
    Agrees g (layoutOf p g mode) (blockOf p g mode plan k) (plan.factsAt p k) := by
  intro atom negated id hid hsign
  have hfact := Layout.fact_holds (l := layoutOf p g mode) (Grounding.index_lt_of_atomId? hid)
  have htrue : IsTrueAt p g plan k (.holds id) ↔ atom ∈ plan.factsAt p k := by
    constructor
    · rintro ⟨atom', hm, hid'⟩
      rwa [Grounding.atomId?_inj hid hid']
    · exact fun hm ↦ ⟨atom, hm, hid⟩
  have hvar : ((layoutOf p g mode).signed id negated).var = ((layoutOf p g mode).holds id).var := by
    cases negated <;> rfl
  rw [HasSign] at hsign
  rw [satisfies_blockOf_iff hk (hvar ▸ hfact), htrue, hsign]
  cases negated <;> simp [Layout.signed, Layout.holds, Cnf.Literal.pos, Cnf.Literal.negate]

theorem decided_blockOf : (layoutOf p g mode).Decided (blockOf p g mode plan k) where
  active _ hop := Layout.decides_valuation hk (Layout.fact_active hop)
  selected _ hop position choice hc := by
    obtain ⟨i, hi, he⟩ := Layout.mem_choices_iff.mp hc
    rw [he]
    exact Layout.decides_valuation hk (Layout.fact_selected hop hi)

end Values

/-! ## Actions of relaxed groundings -/

section Relaxed

variable {reached : Set GroundAtom} (hg : RelaxedGrounding.IsRelaxed p g reached)

include hg

theorem mem_combinations_of_mem_actions (mode : EligibilityMode) (ha : a ∈ g.actions) :
    a.args ∈ combinations ((layoutOf p g mode).eligibility.setsOf a.operator) := by
  obtain ⟨schema, hop, hcomb⟩ := hg.candidate a ha
  cases mode with
  | lifted => exact hcomb
  | grounded =>
    obtain ⟨hlen, _⟩ := Eligibility.mem_combinations_setsOf_iff.mp hcomb
    rw [Eligibility.arity_byType hop] at hlen
    refine Eligibility.mem_combinations_setsOf_iff.mpr
      ⟨hlen.trans (arity_eligibility hop).symm, fun position c hc ↦ ?_⟩
    refine (Eligibility.mem_eligible_byReachability_iff hop).mpr ⟨?_, ?_, a, ha, rfl, hc⟩
    · exact hlen ▸ (List.getElem?_eq_some_iff.mp hc).1
    · exact Eligibility.mem_constantIds_of_mem_combinations_byType hop hcomb c
        (List.mem_of_getElem? hc)

theorem index_lt_of_mem_actions (ha : a ∈ g.actions) :
    a.operator.index < (layoutOf p g mode).operatorCount := by
  obtain ⟨schema, hop, _⟩ := hg.candidate a ha
  exact index_lt_operatorCount hop

theorem Representable.expressible (h : Representable p g semantics plan) :
    Expressible p g ⟨semantics, mode⟩ plan where
  accepted := h.accepted
  within := h.within
  declared entry hentry := by
    obtain ⟨schema, hop, _⟩ := hg.candidate _ (h.listed entry hentry)
    exact ⟨schema, hop⟩
  eligible entry hentry := mem_combinations_of_mem_actions hg mode (h.listed entry hentry)
  known entry hentry := hg.known _ (h.listed entry hentry)
  single := h.single
  sequential := h.sequential
  consistent := h.consistent
  independent := h.independent

end Relaxed

/-! ## The run of a plan -/

section Run

variable (h : Expressible p g ⟨semantics, mode⟩ plan)

include h

theorem runs_blockOf (ha : a ∈ plan.actionsAt k) :
    (layoutOf p g mode).Runs (blockOf p g mode plan k) a.operator a.args := by
  have hk := Nat.le_of_lt (h.lt_makespan ha)
  have hop : a.operator.index < (layoutOf p g mode).operatorCount := h.index_lt ha
  obtain ⟨hlen, hmem⟩ := Eligibility.mem_combinations_setsOf_iff.mp
    (h.eligible _ (Plan.mem_actionsAt_iff.mp ha))
  refine ⟨(satisfies_active_iff hk hop).mpr ⟨a, ha, rfl⟩, hlen, fun position c hc ↦ ?_⟩
  -- a choice of the operator is selected exactly if it is the argument
  have hsel : ∀ choice ∈ (layoutOf p g mode).choices a.operator position,
      (blockOf p g mode plan k).satisfies choice.2 = decide (choice.1 = c) := by
    intro choice hchoice
    rw [Bool.eq_iff_iff, satisfies_choice_iff hk hop hchoice, decide_eq_true_iff]
    constructor
    · rintro ⟨b, hb, hop, hbc⟩
      rw [h.eq_of_operator_eq hb ha hop, hc] at hbc
      exact (Option.some.inj hbc).symm
    · rintro rfl
      exact ⟨a, ha, rfl, hc⟩
  obtain ⟨literal, hl⟩ :=
    Layout.exists_filter_choices (nodup_eligible position) (hmem position c hc)
  exact ⟨literal, by rw [List.filter_congr hsel, hl]⟩

theorem isStepOf_blockOf (hk : k ≤ plan.makespan) :
    IsStepOf p (layoutOf p g mode) (blockOf p g mode plan k) (plan.actionsAt k) := by
  intro op schema args hop
  constructor
  · intro hr
    obtain ⟨a, ha, rfl⟩ := (satisfies_active_iff hk (index_lt_operatorCount hop)).mp hr.active
    exact ⟨a, ha, rfl, (runs_blockOf h ha).unique hr⟩
  · rintro ⟨a, ha, rfl, rfl⟩
    exact runs_blockOf h ha

theorem isBlock_blockOf (hk : k ≤ plan.makespan) :
    IsBlock p g semantics (layoutOf p g mode) (blockOf p g mode plan k) := by
  have hstep : IsStepOf p (layoutOf p g mode) (blockOf p g mode plan k) (plan.actionsAt k) :=
    isStepOf_blockOf h hk
  -- what runs is an action of the step
  have haction : ∀ {op args role atom negated},
      (layoutOf p g mode).Runs (blockOf p g mode plan k) op args →
      p.HasCondition op args role atom negated →
      ∃ a ∈ plan.actionsAt k, a.operator = op ∧ a.args = args := by
    intro op args role atom negated hr hc
    have ⟨schema, hop, _⟩ := hc
    exact (hstep op schema args hop).mp hr
  refine ⟨?_, ?_, ?_, ?_, ?_, ?_⟩
  -- the operators and constants are those of the actions
  · intro op hop hact
    obtain ⟨a, ha, rfl⟩ := (satisfies_active_iff hk hop).mp hact
    exact ⟨a.args, runs_blockOf h ha⟩
  · intro op hop position choice hc hs
    obtain ⟨a, ha, hop', _⟩ := (satisfies_choice_iff hk hop hc).mp hs
    exact (satisfies_active_iff hk hop).mpr ⟨a, ha, hop'⟩
  · intro hseq op op' hop hop' hact hact'
    obtain ⟨a, ha, rfl⟩ := (satisfies_active_iff hk hop).mp hact
    obtain ⟨b, hb, rfl⟩ := (satisfies_active_iff hk hop').mp hact'
    rw [h.eq_of_sequential hseq ha hb]
  -- the actions mention known atoms only
  · intro op args role atom negated hr hc
    obtain ⟨a, ha, rfl, rfl⟩ := haction hr hc
    exact Grounding.exists_atomId?
      (h.known _ (Plan.mem_actionsAt_iff.mp ha) role atom negated hc)
  -- the checker has tested the preconditions
  · intro op args atom negated id hr hc hid
    obtain ⟨a, ha, rfl, rfl⟩ := haction hr hc
    exact agrees_blockOf hk atom negated id hid ((h.applicable ha).holds atom negated hc)
  · intro hpar op args op' args' atom negated hr hr' hne hc hc'
    obtain ⟨a, ha, rfl, rfl⟩ := haction hr hc
    obtain ⟨b, hb, rfl, rfl⟩ := haction hr' hc'
    exact h.independent hpar k (h.lt_makespan ha) a ha b hb hne atom negated hc hc'

theorem isTransition_blockOf (hk : k < plan.makespan) :
    IsTransition p g (layoutOf p g mode) (blockOf p g mode plan k)
      (blockOf p g mode plan (k + 1)) := by
  have hstep : IsStepOf p (layoutOf p g mode) (blockOf p g mode plan k) (plan.actionsAt k) :=
    isStepOf_blockOf h (Nat.le_of_lt hk)
  refine ⟨fun op args atom negated id hr hc hid ↦ ?_, fun atom negated id hid ↦ ?_⟩
  · have hbrings := hstep.brings_iff.mpr ⟨op, args, hr, hc⟩
    exact agrees_blockOf hk atom negated id hid (Plan.hasSign_of_brings (h.consistent k hk) hbrings)
  -- a sign is kept, or lost, or brought by an action of the step
  · by_cases hnow : HasSign (plan.factsAt p k) atom negated
    · exact .inl (agrees_blockOf (Nat.le_of_lt hk) atom negated id hid hnow)
    by_cases hnext : HasSign (plan.factsAt p (k + 1)) atom negated
    · have hbrings := (Plan.hasSign_progress hnext).resolve_right fun hboth ↦ hnow hboth.1
      exact .inr (.inr (hstep.brings_iff.mp hbrings))
    · exact .inr (.inl (agrees_blockOf hk atom _ id hid (hasSign_not_iff.mpr hnext)))

/-- **Plans are runs.** -/
theorem isRun_blockOf :
    IsRun p g semantics (layoutOf p g mode) (blockOf p g mode plan) plan.makespan where
  initial := agrees_blockOf (Nat.zero_le _)
  isBlock _ hk := isBlock_blockOf h hk
  isTransition _ hk := isTransition_blockOf h hk

end Run

/-! ## The model of a plan -/

section Model

variable {strategy : Strategy} {e : Encoding} {os : List Occurrence}
  (he : IsEncoding p g strategy e os)

include he

theorem IsEncoding.block_valuationOf :
    e.formula.block (valuationOf p g strategy.eligibility plan) =
      blockOf p g strategy.eligibility plan := by
  funext k
  rw [he.block_eq, he.layout, blockOf]

/-- **Plans are models.** -/
theorem IsEncoding.models_of_expressible (hg : g.atomTable.Distinct)
    (h : Expressible p g strategy plan) :
    (valuationOf p g strategy.eligibility plan).Models (e.formula.unrolled plan.makespan) := by
  refine he.models_of_isRun hg (fun k hk ↦ ?_) ?_
  · rw [he.block_valuationOf, he.layout]
    exact decided_blockOf hk
  · rw [he.block_valuationOf, he.layout]
    exact isRun_blockOf h

theorem IsEncoding.satisfies_goal_of_check (h : plan.check p = .ok ()) :
    ∀ s ∈ e.formula.goalAt plan.makespan,
      (valuationOf p g strategy.eligibility plan).satisfies s = true := by
  refine ReachabilityFormula.satisfies_goalAt_iff.mpr ?_
  rw [he.block_valuationOf]
  have hagrees : Agrees g e.layout (blockOf p g strategy.eligibility plan plan.makespan)
      (plan.factsAt p plan.makespan) := by
    rw [he.layout]
    exact agrees_blockOf (Nat.le_refl _)
  exact (he.satisfies_goal_iff hagrees).mpr (Plan.check_eq_ok_iff.mp h).2

theorem IsEncoding.models_valuationOf {reached : Set GroundAtom}
    (hg : RelaxedGrounding.IsRelaxed p g reached)
    (h : Representable p g strategy.semantics plan) :
    (valuationOf p g strategy.eligibility plan).Models (e.formula.unrolled plan.makespan) :=
  he.models_of_expressible hg.distinctAtoms (h.expressible hg)

theorem IsEncoding.satisfies_goal_valuationOf (h : Representable p g strategy.semantics plan) :
    ∀ s ∈ e.formula.goalAt plan.makespan,
      (valuationOf p g strategy.eligibility plan).satisfies s = true :=
  he.satisfies_goal_of_check h.accepted

end Model

end LiftedPlanning.Encoding
