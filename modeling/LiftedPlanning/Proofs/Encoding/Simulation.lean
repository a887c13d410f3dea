import LiftedPlanning.Proofs.Encoding.Completeness
import LiftedPlanning.Proofs.Encoding.Serialization

/-!
# Sequential and parallel steps simulate each other

Both semantics have the same variables, and they differ in a few universal clauses only. That no two
operators are active together implies every interference clause, so a sequential model is a parallel
one. Conversely, what runs in the blocks of a parallel model can be executed one by one: the actions
of a block are independent of each other, and the next block agrees with the atoms that hold after
all of them. The sequence need not consist of actions of the grounding. What it mentions is known
and eligible, because it runs, and that is enough for a sequential model.
-/

namespace LiftedPlanning.Encoding

open Cnf (Assignment Clause Literal)
open Cnf.Assignment

variable {p : Problem} {g : Grounding} {mode : EligibilityMode} {m : Assignment}
  {os : List Occurrence}

/-! ## From sequential to parallel -/

theorem models_interferenceClauses_of_exclusions {l : Layout}
    (hos : ∀ o ∈ os, IsOccurrence p g l o)
    (hops : ∀ o ∈ os, o.rule.operator.index < l.operatorCount)
    (h : m.Models (exclusions (l.operators.map l.active))) :
    m.Models (interferenceClauses l (supportOf os)) := by
  refine models_interferenceClauses_iff.mpr ?_
  intro _ _ o ho o' ho' _ _ _ _ _ hne
  rw [operator_binding (hos o ho), operator_binding (hos o' ho')] at hne
  have hmem : ∀ o ∈ os, l.active o.rule.operator ∈ l.operators.map l.active :=
    fun o ho ↦ List.mem_map_of_mem (Layout.mem_operators_iff.mpr (hops o ho))
  have hactive : l.active o.rule.operator ≠ l.active o'.rule.operator := fun he ↦
    hne (Layout.active_inj (hops o ho) (hops o' ho') he).symm
  have hc := satisfiesClause_of_models_exclusions h (hmem o ho) (hmem o' ho') hactive
  rw [satisfiesClause_cons, satisfiesClause_singleton] at hc
  rw [exclude, List.map_append, satisfiesClause_append]
  refine hc.imp (fun hs ↦ ?_) fun hs ↦ ?_
  · exact satisfiesClause_iff.mpr
      ⟨_, List.mem_map_of_mem (hos o ho).active_mem_conjunction, hs⟩
  · exact satisfiesClause_iff.mpr
      ⟨_, List.mem_map_of_mem (hos o' ho').active_mem_conjunction, hs⟩

theorem models_universalClauses_parallel (hos : Covers p g (layoutOf p g mode) os)
    (h : m.Models (universalClauses (layoutOf p g mode) .sequential os)) :
    m.Models (universalClauses (layoutOf p g mode) .parallel os) := by
  obtain ⟨hsel, huniv, _⟩ := models_universalClauses_iff.mp h
  obtain ⟨hops, hexcl⟩ := models_selectionClauses_iff.mp hsel
  refine models_universalClauses_iff.mpr ⟨?_, huniv, fun _ ↦ ?_⟩
  · exact models_selectionClauses_iff.mpr ⟨hops, nofun⟩
  · have hocc : ∀ o ∈ os, IsOccurrence p g (layoutOf p g mode) o := fun o ↦ (hos.mem_iff o).mp
    exact models_interferenceClauses_of_exclusions hocc
      (fun o ho ↦ index_lt_operatorCount (hocc o ho).rule.declared) (hexcl rfl)

/-- **Sequential models are parallel models.** -/
theorem models_unrolled_parallel {s q : Encoding} (hs : IsEncoding p g ⟨.sequential, mode⟩ s os)
    (hq : IsEncoding p g ⟨.parallel, mode⟩ q os) {horizon : Nat}
    (h : m.Models (s.formula.unrolled horizon)) : m.Models (q.formula.unrolled horizon) := by
  have hlayout : s.layout = q.layout := hs.layout.trans hq.layout.symm
  have hblock : ∀ k, s.formula.block m k = q.formula.block m k := fun k ↦ by
    rw [hs.block_eq, hq.block_eq, hlayout]
  obtain ⟨hinit, huniv, htrans⟩ := ReachabilityFormula.models_unrolled_iff.mp h
  rw [hs.initial, hlayout, ← hq.initial] at hinit
  rw [hs.transition, hlayout, ← hq.transition] at htrans
  refine ReachabilityFormula.models_unrolled_iff.mpr ⟨hinit, fun k hk ↦ ?_, fun k hk ↦ ?_⟩
  · have hu := huniv k hk
    rw [hs.universal, hs.layout] at hu
    rw [hq.universal, hq.layout, ← hblock]
    exact models_universalClauses_parallel hq.covers hu
  · rw [← hblock]
    exact htrans k hk

/-! ## What runs, one after the other -/

/-- Actions for the operators that are active in a block, with the arguments that they run with. -/
def IsListing (l : Layout) (m : Assignment) (actions : List Action) : Prop :=
  List.Forall₂ (fun op a ↦ a.operator = op ∧ l.Runs m op a.args) (Plan.activeOperators l m) actions

theorem exists_isListing {l : Layout} (h : l.ActiveRun m) : ∃ actions, IsListing l m actions := by
  refine Fallible.exists_forall₂ fun op hop ↦ ?_
  obtain ⟨hop, hactive⟩ := Plan.mem_activeOperators_iff.mp hop
  obtain ⟨args, hr⟩ := h op hop hactive
  exact ⟨⟨0, op, args, ""⟩, rfl, hr⟩

namespace IsListing

variable {l : Layout} {actions : List Action}

theorem runs (h : IsListing l m actions) {a : Action} (ha : a ∈ actions) :
    a.operator.index < l.operatorCount ∧ l.Runs m a.operator a.args := by
  obtain ⟨op, hop, rfl, hr⟩ := Fallible.exists_left h ha
  exact ⟨(Plan.mem_activeOperators_iff.mp hop).1, hr⟩

theorem pairwise_operator_ne (h : IsListing l m actions) :
    actions.Pairwise fun a b ↦ a.operator ≠ b.operator := by
  have hmap : actions.map Action.operator = Plan.activeOperators l m := by
    refine (List.forall₂_eq_eq_eq ▸ List.forall₂_map_right_iff.mpr (h.imp ?_)).symm
    exact fun _ _ hx ↦ hx.1.symm
  have hlt := Plan.pairwise_activeOperators (l := l) (m := m)
  rw [← hmap, List.pairwise_map] at hlt
  exact hlt.imp fun hx he ↦ Nat.ne_of_lt hx (congrArg Handle.index he)

theorem isStepOf (h : IsListing (layoutOf p g mode) m actions) :
    IsStepOf p (layoutOf p g mode) m actions := by
  intro op schema args hop
  constructor
  · intro hr
    obtain ⟨a, ha, rfl, hr'⟩ := Fallible.exists_right h
      (Plan.mem_activeOperators_iff.mpr ⟨index_lt_operatorCount hop, hr.active⟩)
    exact ⟨a, ha, rfl, hr'.unique hr⟩
  · rintro ⟨a, ha, rfl, rfl⟩
    exact (h.runs ha).2

theorem pairwise_independent (h : IsListing l m actions) (hb : IsBlock p g .parallel l m) :
    actions.Pairwise (Plan.Independent p) := by
  refine h.pairwise_operator_ne.imp_of_mem fun {a b} ha hb' hne atom negated ↦ ?_
  exact hb.independent rfl _ _ _ _ atom negated (h.runs ha).2 (h.runs hb').2 hne

end IsListing

section Run

variable {block : Nat → Assignment} {horizon : Nat} {actions : Nat → List Action}
  (hos : Covers p g (layoutOf p g mode) os)
  (hrun : IsRun p g .parallel (layoutOf p g mode) block horizon)
  (hactions : ∀ k < horizon, IsListing (layoutOf p g mode) (block k) (actions k))

include hos hrun hactions

/-- **Runs are executed one by one.** The atoms that hold after the actions of the first steps agree
with the block that comes next. -/
theorem executable_of_isRun {n : Nat} (hn : n ≤ horizon) :
    Plan.Executable p (State.facts p.init) ((List.range n).flatMap actions) ∧
      Agrees g (layoutOf p g mode) (block n)
        (Plan.progressAll p (State.facts p.init) ((List.range n).flatMap actions)) := by
  induction n with
  | zero => exact ⟨trivial, hrun.initial⟩
  | succ n ih =>
    have hlt : n < horizon := Nat.lt_of_succ_le hn
    have hb := hrun.isBlock n (Nat.le_of_lt hlt)
    have hl := hactions n hlt
    obtain ⟨hexec, hagrees⟩ := ih (Nat.le_of_lt hlt)
    have hcons : Plan.Consistent p (actions n) :=
      hl.isStepOf.consistent hb (hrun.isTransition n hlt)
    rw [List.range_succ, List.flatMap_append, List.flatMap_singleton, Plan.executable_append_iff,
      Plan.progressAll_append, Plan.progressAll_eq_progress hcons]
    refine ⟨⟨hexec, Plan.executable_of_pairwise (hl.pairwise_independent hb) fun a ha ↦ ?_⟩, ?_⟩
    · obtain ⟨hop, hr⟩ := hl.runs ha
      exact applicable_of_runs hos hb hagrees hop hr
    · exact hagrees.progress (hrun.isTransition n hlt) hl.isStepOf

theorem expressible_ofSequence
    (hgoal : ∀ w, Agrees g (layoutOf p g mode) (block horizon) w → Plan.GoalHolds p w) :
    Expressible p g ⟨.sequential, mode⟩
      (Plan.ofSequence ((List.range horizon).flatMap actions)) := by
  obtain ⟨hexec, hagrees⟩ := executable_of_isRun hos hrun hactions (Nat.le_refl horizon)
  have hlt : (Plan.ofSequence ((List.range horizon).flatMap actions)).entries.Pairwise
      fun x y ↦ x.1 < y.1 := Plan.pairwise_entries_ofSequence
  -- whatever is executed runs in some block
  have hruns : ∀ a ∈ (List.range horizon).flatMap actions, ∃ k < horizon, a ∈ actions k ∧
      (∃ schema, p.operator? a.operator = some schema) ∧
        (layoutOf p g mode).Runs (block k) a.operator a.args := by
    intro a ha
    obtain ⟨k, hk, ha⟩ := List.mem_flatMap.mp ha
    have hk := List.mem_range.mp hk
    obtain ⟨hop, hr⟩ := (hactions k hk).runs ha
    rw [operatorCount_layoutOf] at hop
    exact ⟨k, hk, ha, Problem.exists_operator? hop, hr⟩
  refine ⟨Plan.check_ofSequence_eq_ok_iff.mpr ⟨hexec, hgoal _ hagrees⟩, ?_, ?_, ?_, ?_, ?_, ?_, ?_,
    nofun⟩
  · exact fun entry hentry ↦ (Plan.of_mem_entries_ofSequence hentry).1
  · intro entry hentry
    obtain ⟨_, _, _, hop, _⟩ := hruns _ (Plan.of_mem_entries_ofSequence hentry).2
    exact hop
  · intro entry hentry
    obtain ⟨_, _, _, _, hr⟩ := hruns _ (Plan.of_mem_entries_ofSequence hentry).2
    exact mem_combinations_of_runs hr
  · intro entry hentry role atom negated hc
    obtain ⟨k, hk, _, _, hr⟩ := hruns _ (Plan.of_mem_entries_ofSequence hentry).2
    obtain ⟨id, hid⟩ := (hrun.isBlock k (Nat.le_of_lt hk)).known _ _ role atom negated hr hc
    exact Grounding.isSome_atomId?_iff.mp (Option.isSome_of_eq_some hid)
  · exact hlt.imp fun hstep heq ↦ absurd heq (Nat.ne_of_lt hstep)
  · exact fun _ ↦ hlt.imp Nat.ne_of_lt
  -- a step holds a single action, which runs beside others in its block
  · intro i hi
    have hi : i < ((List.range horizon).flatMap actions).length := hi
    obtain ⟨k, hk, hmem, _⟩ := hruns _ (List.getElem_mem hi)
    have hl := hactions k hk
    refine (hl.isStepOf.consistent (hrun.isBlock k (Nat.le_of_lt hk))
      (hrun.isTransition k hk)).mono fun a ha ↦ ?_
    rw [Plan.mem_actionsAt_ofSequence_iff, List.getElem?_eq_getElem hi] at ha
    exact Option.some.inj ha ▸ hmem

end Run

/-! ## From parallel to sequential -/

/-- **Parallel solutions become sequential ones.** There is one step for each active operator. -/
theorem solvable_sequential (hg : g.atomTable.Distinct) {s q : Encoding}
    (hs : IsEncoding p g ⟨.sequential, mode⟩ s os) (hq : IsEncoding p g ⟨.parallel, mode⟩ q os)
    {horizon : Nat} (h : q.formula.Solves horizon m) :
    s.formula.Solvable ((List.range horizon).flatMap fun k ↦
      Plan.activeOperators q.layout (m.after (k * q.layout.size))).length := by
  obtain ⟨hm, hgoal⟩ := h
  have hrun := hq.isRun_of_models hm
  have hlist : ∀ k, ∃ actions, k < horizon →
      IsListing q.layout (q.formula.block m k) actions := fun k ↦ by
    by_cases hk : k < horizon
    · obtain ⟨actions, hactions⟩ := exists_isListing (hrun.isBlock k (Nat.le_of_lt hk)).runs
      exact ⟨actions, fun _ ↦ hactions⟩
    · exact ⟨[], fun hk' ↦ absurd hk' hk⟩
  choose actions hactions using hlist
  have hlength : ((List.range horizon).flatMap fun k ↦
      Plan.activeOperators q.layout (m.after (k * q.layout.size))).length =
        ((List.range horizon).flatMap actions).length := by
    rw [List.length_flatMap, List.length_flatMap]
    refine congrArg List.sum (List.map_congr_left fun k hk ↦ ?_)
    rw [← hq.block_eq]
    exact (hactions k (List.mem_range.mp hk)).length_eq
  have hexpr : Expressible p g ⟨.sequential, mode⟩
      (Plan.ofSequence ((List.range horizon).flatMap actions)) := by
    rw [hq.layout] at hrun hactions
    refine expressible_ofSequence hq.covers hrun hactions fun w hw ↦ ?_
    rw [← hq.layout] at hw
    exact (hq.satisfies_goal_iff hw).mp (ReachabilityFormula.satisfies_goalAt_iff.mp hgoal)
  rw [hlength]
  exact ⟨_, hs.models_of_expressible hg hexpr, hs.satisfies_goal_of_check hexpr.accepted⟩

/-- **Sequential and parallel encodings simulate each other.** Take a problem that can be encoded
for a grounding and a source of eligible constants. With either semantics it can be, the variables
and the goal are the same, and every model of the sequential formula is a model of the parallel one.
A solution of the parallel formula gives rise to one of the sequential formula with as many steps as
there are operators that are active before the horizon. -/
theorem exists_sequential_parallel (hg : g.IsBuilt) {semantics : StepSemantics} {e : Encoding}
    (he : ofProblem p g ⟨semantics, mode⟩ = .ok e) :
    ∃ s q, ofProblem p g ⟨.sequential, mode⟩ = .ok s ∧ ofProblem p g ⟨.parallel, mode⟩ = .ok q ∧
      s.layout = q.layout ∧ s.formula.goal = q.formula.goal ∧
      (∀ horizon (m : Assignment), m.Models (s.formula.unrolled horizon) →
        m.Models (q.formula.unrolled horizon)) ∧
      ∀ horizon m, q.formula.Solves horizon m →
        s.formula.Solvable ((List.range horizon).flatMap fun k ↦
          Plan.activeOperators q.layout (m.after (k * q.layout.size))).length := by
  obtain ⟨goal, os, h⟩ := exists_assemble he
  obtain ⟨hs, hs'⟩ := h .sequential
  obtain ⟨hq, hq'⟩ := h .parallel
  exact ⟨_, _, hs, hq, rfl, rfl, fun _ _ ↦ models_unrolled_parallel hs' hq',
    fun _ _ ↦ solvable_sequential hg.distinctAtoms hs' hq'⟩

/-- The parallel encoding of the doors over all that the grounder finds. -/
def doorsRelaxedParallel : Encoding :=
  (ofProblem doors doorsRelaxed.grounding ⟨.parallel, .lifted⟩).toOption.get (by decide +kernel)

/-- A model of two blocks that opens one door while ringing at the other one. -/
def doorsParallelModel : Assignment :=
  ⟨#[true, true, true, false, false, true, true, false, false, false,
    false, false, false, false, false, false, true, true, true, false].map some⟩

/-- The door is opened in one sequential step and the bell rung in another one. -/
theorem exists_sequential_doors :
    ∃ s, ofProblem doors doorsRelaxed.grounding ⟨.sequential, .lifted⟩ = .ok s ∧
      s.formula.Solvable 2 := by
  have hr : RelaxedGrounding.ofProblem doors = .ok doorsRelaxed := Fallible.eq_ok_get _
  have he : ofProblem doors doorsRelaxed.grounding ⟨.parallel, .lifted⟩ =
      .ok doorsRelaxedParallel := Fallible.eq_ok_get _
  obtain ⟨s, q, hs, hq, _, _, _, h⟩ :=
    exists_sequential_parallel (RelaxedGrounding.isBuilt_of_ofProblem hr) he
  obtain rfl : doorsRelaxedParallel = q := Except.ok.inj (he.symm.trans hq)
  have hsolves : doorsRelaxedParallel.formula.Solves 1 doorsParallelModel :=
    ⟨by decide +kernel, by decide +kernel⟩
  have hactive : ((List.range 1).flatMap fun k ↦ Plan.activeOperators doorsRelaxedParallel.layout
      (doorsParallelModel.after (k * doorsRelaxedParallel.layout.size))).length = 2 := by
    decide +kernel
  exact ⟨s, hs, hactive ▸ h 1 doorsParallelModel hsolves⟩

end LiftedPlanning.Encoding
