import LiftedPlanning.Proofs.Encoding.Completeness

/-!
# From plans to models and back

Unit clauses can force the operators and constants of a plan upon the unrolled formula. The formula
then still has a model that meets the goal, and every model of it is decoded to the plan again.
-/

namespace LiftedPlanning.Encoding

open Cnf (Assignment Clause Literal)
open Cnf.Assignment

/-! ## Forcing a plan -/

/-- The literals that select the arguments of an action. -/
def argumentLiterals (l : Layout) (a : Action) : List Literal :=
  a.args.zipIdx.filterMap fun (c, position) ↦
    (l.eligibility.place? a.operator position c).map (l.selected a.operator position)

/-- The literals that say that these actions and no other operators are executed in a step. -/
def stepLiterals (l : Layout) (actions : List Action) : List Literal :=
  (actions.flatMap fun a ↦ l.active a.operator :: argumentLiterals l a) ++
    (l.operators.filter fun op ↦ op ∉ actions.map (·.operator)).map fun op ↦ (l.active op).negate

/-- Unit clauses for the actions of the steps of a plan. -/
def forcedClauses (l : Layout) (plan : Plan) : List Clause :=
  (List.range plan.makespan).flatMap fun k ↦
    (stepLiterals l (plan.actionsAt k)).map fun s ↦ [s.shift (k * l.size)]

variable {p : Problem} {g : Grounding} {mode : EligibilityMode} {semantics : StepSemantics}
  {strategy : Strategy} {l : Layout} {m : Assignment} {plan : Plan} {k : Nat} {a : Action}

theorem models_forcedClauses_iff :
    m.Models (forcedClauses l plan) ↔ ∀ k < plan.makespan, ∀ s ∈ stepLiterals l (plan.actionsAt k),
      (m.after (k * l.size)).satisfies s = true := by
  simp only [forcedClauses, Models.flatMap_iff, List.mem_range, Models.map_iff,
    satisfiesClause_singleton, satisfies_after]

theorem mem_argumentLiterals_iff {s : Literal} :
    s ∈ argumentLiterals l a ↔ ∃ position c, a.args[position]? = some c ∧
      ∃ i, l.eligibility.place? a.operator position c = some i ∧
        s = l.selected a.operator position i := by
  simp only [argumentLiterals, List.mem_filterMap, Prod.exists, List.mem_zipIdx_iff_getElem?,
    Option.map_eq_some_iff]
  constructor
  · rintro ⟨c, position, hc, i, hi, rfl⟩
    exact ⟨position, c, hc, i, hi, rfl⟩
  · rintro ⟨position, c, hc, i, hi, rfl⟩
    exact ⟨c, position, hc, i, hi, rfl⟩

theorem mem_choices_of_place? {op : OperatorId} {position : Nat} {c : ConstantId} {i : Nat}
    (h : l.eligibility.place? op position c = some i) :
    (c, l.selected op position i) ∈ l.choices op position := by
  obtain ⟨hi, he, _⟩ := List.idxOf?_eq_some_iff.mp h
  exact Layout.mem_choices_iff.mpr ⟨i, by rw [List.getElem?_eq_getElem hi, he], rfl⟩

/-! ## Models of forced plans -/

section Forced

variable {reached : Set GroundAtom} (hg : RelaxedGrounding.IsRelaxed p g reached)
  (h : Representable p g semantics plan)

include hg h

theorem models_forcedClauses_valuationOf :
    (valuationOf p g mode plan).Models (forcedClauses (layoutOf p g mode) plan) := by
  refine models_forcedClauses_iff.mpr fun k hlt s hs ↦ ?_
  have hk := Nat.le_of_lt hlt
  rw [← blockOf]
  rcases List.mem_append.mp hs with hs | hs
  · obtain ⟨a, ha, hs⟩ := List.mem_flatMap.mp hs
    have hop : a.operator.index < (layoutOf p g mode).operatorCount :=
      index_lt_of_mem_actions hg (h.mem_actions ha)
    rcases List.mem_cons.mp hs with rfl | hs
    · exact (satisfies_active_iff hk hop).mpr ⟨a, ha, rfl⟩
    · obtain ⟨position, c, hc, i, hi, rfl⟩ := mem_argumentLiterals_iff.mp hs
      exact (satisfies_choice_iff hk hop (mem_choices_of_place? hi)).mpr ⟨a, ha, rfl, hc⟩
  · obtain ⟨op, hmem, rfl⟩ := List.mem_map.mp hs
    obtain ⟨hop, hother⟩ := List.mem_filter.mp hmem
    rw [Layout.mem_operators_iff] at hop
    rw [((decided_blockOf hk).active op hop).satisfies_negate_iff, satisfies_active_iff hk hop]
    rintro ⟨a, ha, rfl⟩
    exact of_decide_eq_true hother (List.mem_map_of_mem ha)

theorem exists_action_of_runs_forced
    (hs : ∀ s ∈ stepLiterals (layoutOf p g mode) (plan.actionsAt k), m.satisfies s = true)
    {op : OperatorId} (hop : op.index < (layoutOf p g mode).operatorCount) {args : List ConstantId}
    (hr : (layoutOf p g mode).Runs m op args) :
    ∃ a ∈ plan.actionsAt k, a.operator = op ∧ a.args = args := by
  -- otherwise the operator would be forced to be inactive
  have hact : op ∈ (plan.actionsAt k).map (·.operator) := by
    by_contra hn
    refine not_satisfies_negate hr.active (hs _ (List.mem_append_right _ (List.mem_map_of_mem ?_)))
    exact List.mem_filter.mpr ⟨Layout.mem_operators_iff.mpr hop, decide_eq_true hn⟩
  obtain ⟨a, ha, rfl⟩ := List.mem_map.mp hact
  obtain ⟨hlen, hmem⟩ := Eligibility.mem_combinations_setsOf_iff.mp
    (mem_combinations_of_mem_actions hg mode (h.mem_actions ha))
  refine ⟨a, ha, rfl, List.ext_getElem (hlen.trans hr.length.symm) fun i hi hi' ↦ ?_⟩
  have hc := List.getElem?_eq_getElem hi
  obtain ⟨place, hplace⟩ := Option.isSome_iff_exists.mp (List.isSome_idxOf?.mpr (hmem i _ hc))
  have hsat : m.satisfies ((layoutOf p g mode).selected a.operator i place) = true := by
    refine hs _ (List.mem_append_left _ (List.mem_flatMap.mpr ⟨a, ha, List.mem_cons_of_mem _ ?_⟩))
    exact mem_argumentLiterals_iff.mpr ⟨i, _, hc, place, hplace, rfl⟩
  have harg := hr.getElem?_of_satisfies (mem_choices_of_place? hplace) hsat
  exact Option.some.inj (harg.symm.trans (List.getElem?_eq_getElem hi'))

/-! ### Decoding -/

variable {e : Encoding} {os : List Occurrence} (he : IsEncoding p g ⟨semantics, mode⟩ e os)
  (hf : m.Models (forcedClauses e.layout plan))

include he hf

theorem exists_action_of_models_forced (hk : k < plan.makespan) {op : OperatorId}
    (hop : op.index < e.layout.operatorCount) {args : List ConstantId}
    (hr : e.layout.Runs (m.after (k * e.layout.size)) op args) :
    ∃ a ∈ plan.actionsAt k, a.operator = op ∧ a.args = args := by
  have hs := models_forcedClauses_iff.mp hf k hk
  rw [he.layout] at hs hop hr
  exact exists_action_of_runs_forced hg h hs hop hr

theorem exists_decode_forced (hm : m.Models (e.formula.unrolled plan.makespan)) :
    ∃ decoded, Plan.decode e.layout g m plan.makespan = .ok decoded := by
  refine Plan.exists_decode_of_runs fun k hk op hop ha ↦ ?_
  rw [Layout.mem_operators_iff] at hop
  have hblock := (he.isRun_of_models hm).isBlock k (Nat.le_of_lt hk)
  rw [he.block_eq] at hblock
  obtain ⟨args, hr⟩ := hblock.runs op hop ha
  obtain ⟨a, ha, hact⟩ := exists_action_of_models_forced hg h he hf hk hop hr
  exact ⟨args, hr, a, h.mem_actions ha, hact⟩

theorem mem_actionsAt_iff_of_forced {decoded : Plan}
    (hd : Plan.decode e.layout g m plan.makespan = .ok decoded) :
    a ∈ decoded.actionsAt k ↔ a ∈ plan.actionsAt k := by
  -- what is decoded is found by the operator and arguments of an action of the plan
  have hmem : ∀ b ∈ decoded.actionsAt k, b ∈ plan.actionsAt k := by
    intro b hb
    obtain ⟨hk, hop, hr, hact⟩ := Plan.mem_actionsAt_of_decode hd hb
    obtain ⟨c, hc, hopc, hargs⟩ := exists_action_of_models_forced hg h he hf hk hop hr
    have hact' := (Grounding.action?_eq_some_iff hg.distinctActions).mpr
      ⟨h.mem_actions hc, hopc, hargs⟩
    rwa [Option.some.inj (hact'.symm.trans hact)] at hc
  refine ⟨hmem a, fun ha ↦ ?_⟩
  have hk := h.lt_makespan ha
  have hop : a.operator.index < e.layout.operatorCount := by
    rw [he.layout]
    exact index_lt_of_mem_actions hg (h.mem_actions ha)
  have hactive : (m.after (k * e.layout.size)).satisfies (e.layout.active a.operator) = true :=
    models_forcedClauses_iff.mp hf k hk _
      (List.mem_append_left _ (List.mem_flatMap.mpr ⟨a, ha, List.mem_cons_self⟩))
  obtain ⟨b, hb, hopb⟩ := Plan.exists_mem_actionsAt_of_decode hd hk hop hactive
  rwa [h.eq_of_operator_eq (hmem b hb) ha hopb] at hb

/-- **A forced plan is decoded.** -/
theorem decode_of_models_forced (hm : m.Models (e.formula.unrolled plan.makespan)) :
    Plan.decode e.layout g m plan.makespan = .ok plan := by
  obtain ⟨decoded, hd⟩ := exists_decode_forced hg h he hf hm
  have hentries : decoded.entries = plan.entries := by
    refine Plan.entries_eq_of_mem_iff (Plan.pairwise_entries_of_decode hd) h.pairwise_before ?_
    rintro ⟨k, b⟩
    rw [← Plan.mem_actionsAt_iff, ← Plan.mem_actionsAt_iff]
    exact mem_actionsAt_iff_of_forced hg h he hf hd
  have hmakespan := Plan.makespan_of_decode hd
  obtain ⟨_, _⟩ := decoded
  obtain rfl := hmakespan
  obtain rfl := hentries
  exact hd

end Forced

/-! ## Round trip -/

/-- Opening one door while ringing at the other one. -/
def doorsRelaxedPlan : Plan :=
  ⟨1, [(0, ⟨0, ⟨0⟩, [⟨0⟩], "open(a)"⟩), (0, ⟨3, ⟨1⟩, [⟨1⟩], "ring(b)"⟩)]⟩

/-- **Completeness and round trip.** A plan over a relaxed grounding that can be represented is a
plan of the unrolled formula: with its operators and constants forced upon the formula there is a
model that meets the goal, and every model is decoded to the plan. -/
theorem exists_models_and_decode_forced {r : RelaxedGrounding}
    (hr : RelaxedGrounding.ofProblem p = .ok r) (strategy : Strategy)
    (h : Representable p r.grounding strategy.semantics plan) :
    ∃ e, ofProblem p r.grounding strategy = .ok e ∧
      (∃ m : Assignment,
        m.Models (e.formula.unrolled plan.makespan ++ forcedClauses e.layout plan) ∧
          ∀ s ∈ e.formula.goalAt plan.makespan, m.satisfies s = true) ∧
      ∀ m : Assignment, m.Models (e.formula.unrolled plan.makespan ++ forcedClauses e.layout plan) →
        Plan.decode e.layout r.grounding m plan.makespan = .ok plan := by
  obtain ⟨reached, hg⟩ := RelaxedGrounding.exists_isRelaxed hr
  obtain ⟨e, he⟩ := exists_ofProblem_of_isRelaxed hg strategy
  obtain ⟨os, hos⟩ := exists_isEncoding he
  refine ⟨e, he, ⟨valuationOf p r.grounding strategy.eligibility plan, ?_, ?_⟩, fun m hm ↦ ?_⟩
  · refine Models.append_iff.mpr ⟨hos.models_valuationOf hg h, ?_⟩
    rw [hos.layout]
    exact models_forcedClauses_valuationOf hg h
  · exact hos.satisfies_goal_valuationOf h
  · obtain ⟨hm, hf⟩ := Models.append_iff.mp hm
    exact decode_of_models_forced hg h hos hf hm

theorem exists_models_and_decode_forced_doors :
    Representable doors doorsRelaxed.grounding .parallel doorsRelaxedPlan ∧
      ∃ e, ofProblem doors doorsRelaxed.grounding ⟨.parallel, .lifted⟩ = .ok e ∧
        (∃ m : Assignment,
          m.Models (e.formula.unrolled 1 ++ forcedClauses e.layout doorsRelaxedPlan) ∧
            ∀ s ∈ e.formula.goalAt 1, m.satisfies s = true) ∧
        ∀ m : Assignment,
          m.Models (e.formula.unrolled 1 ++ forcedClauses e.layout doorsRelaxedPlan) →
            Plan.decode e.layout doorsRelaxed.grounding m 1 = .ok doorsRelaxedPlan := by
  have h : Representable doors doorsRelaxed.grounding .parallel doorsRelaxedPlan := by
    decide +kernel
  exact ⟨h, exists_models_and_decode_forced (Fallible.eq_ok_get _) ⟨.parallel, .lifted⟩ h⟩

end LiftedPlanning.Encoding
