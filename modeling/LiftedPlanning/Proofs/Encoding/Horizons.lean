import Mathlib.Algebra.Order.Group.Multiset
import Mathlib.Tactic.Abel
import LiftedPlanning.Proofs.Cnf.Verdict
import LiftedPlanning.Proofs.Encoding.Range
import LiftedPlanning.Proofs.Encoding.Simulation

/-!
# Growing horizons

An unrolling that was extended `h` times holds the initial clauses, the universal clauses of the
steps up to `h` and the transition clauses between these steps, each of them once. Its variables are
those of `h + 1` blocks, which are also reserved.

What can be solved at a horizon can be solved at the next one. A first step in which no operator is
active leads from the initial state to itself, so it can be put before any model. Behind it the
model starts as it did before.
-/

namespace LiftedPlanning

open Cnf (Assignment Clause Literal NumbersIn Within)
open Cnf.Assignment

/-! ## Reserved variables -/

namespace Cnf

theorem Clause.maxNumber_le {c : Clause} {n : Nat} (h : ∀ literal ∈ c, literal.number ≤ n) :
    c.maxNumber ≤ n := by
  have hfold : ∀ (c : Clause) (m : Nat), m ≤ n → (∀ literal ∈ c, literal.number ≤ n) →
      c.foldl (fun n literal ↦ max n literal.number) m ≤ n := by
    intro c
    induction c with
    | nil => exact fun _ hm _ ↦ hm
    | cons literal c ih =>
      intro m hm hc
      obtain ⟨hl, hc⟩ := List.forall_mem_cons.mp hc
      exact ih _ (Nat.max_le.mpr ⟨hm, hl⟩) hc
  exact hfold c 0 (Nat.zero_le n) h

theorem Store.varCount_addClauses {s : Store} {cs : List Clause}
    (h : ∀ c ∈ cs, ∀ literal ∈ c, literal.number ≤ s.varCount) :
    (s.addClauses cs).varCount = s.varCount := by
  change cs.foldl (fun n c ↦ max n (Clause.maxNumber c)) s.varCount = s.varCount
  induction cs with
  | nil => rfl
  | cons c cs ih =>
    obtain ⟨hc, hcs⟩ := List.forall_mem_cons.mp h
    rw [List.foldl_cons, Nat.max_eq_left (Clause.maxNumber_le hc)]
    exact ih hcs

end Cnf

/-! ## Unrolled clauses -/

namespace ReachabilityFormula

variable {f : ReachabilityFormula}

/-- Each part of the formula is there once for each step that it is about. -/
theorem unrolled_perm (f : ReachabilityFormula) (h : Nat) :
    (f.unrolled h).Perm (f.initial ++ ((List.range (h + 1)).flatMap f.universalAt ++
      (List.range h).flatMap f.transitionAt)) := by
  have hsucc : ∀ (part : Nat → List Clause) n,
      (List.range (n + 1)).flatMap part = (List.range n).flatMap part ++ part n := fun part n ↦ by
    rw [List.range_succ, List.flatMap_append, List.flatMap_singleton]
  induction h with
  | zero => simp [unrolled]
  | succ h ih =>
    rw [unrolled, hsucc f.universalAt (h + 1), hsucc f.transitionAt h]
    refine (ih.append_right _).trans ?_
    rw [← Multiset.coe_eq_coe]
    simp only [← Multiset.coe_add]
    abel

/-- The parts of the formula are about one block, and about two. -/
structure Blockwise (f : ReachabilityFormula) : Prop where
  initial : Within f.stepSize f.initial
  universal : Within f.stepSize f.universal
  transition : Within (2 * f.stepSize) f.transition

namespace Blockwise

variable (hf : f.Blockwise)

include hf

theorem numbersIn_universalAt (k : Nat) :
    NumbersIn (Set.Ioc (k * f.stepSize) ((k + 1) * f.stepSize)) (f.universalAt k) := by
  rw [Nat.add_mul, Nat.one_mul]
  exact numbersIn_moved hf.universal k

theorem numbersIn_transitionAt (k : Nat) :
    NumbersIn (Set.Ioc (k * f.stepSize) ((k + 2) * f.stepSize)) (f.transitionAt k) := by
  rw [Nat.add_mul]
  exact numbersIn_moved hf.transition k

theorem numbersIn_unrolled (h : Nat) :
    NumbersIn (Set.Icc 1 ((h + 1) * f.stepSize)) (f.unrolled h) := by
  have hblocks : ∀ {cs : List Clause} {k n : Nat}, n ≤ h + 1 →
      NumbersIn (Set.Ioc (k * f.stepSize) (n * f.stepSize)) cs →
      NumbersIn (Set.Icc 1 ((h + 1) * f.stepSize)) cs := fun hn hcs c hc literal hl ↦
    ⟨Nat.succ_pos _, (hcs c hc literal hl).2.trans (Nat.mul_le_mul_right _ hn)⟩
  intro c hc
  simp only [(f.unrolled_perm h).mem_iff, List.mem_append, List.mem_flatMap, List.mem_range] at hc
  rcases hc with hc | ⟨k, hk, hc⟩ | ⟨k, hk, hc⟩
  · refine fun literal hl ↦ ⟨Nat.succ_pos _, ?_⟩
    exact Nat.le_trans (hf.initial c hc literal hl) (Nat.le_mul_of_pos_left _ h.succ_pos)
  · exact hblocks hk (hf.numbersIn_universalAt k) c hc
  · exact hblocks (Nat.succ_le_succ hk) (hf.numbersIn_transitionAt k) c hc

end Blockwise

end ReachabilityFormula

/-! ## Extended unrollings -/

namespace Unrolling

variable {f : ReachabilityFormula} {h : Nat} {u : Unrolling}

/-- What a store holds after `h` extensions. -/
structure Reaches (f : ReachabilityFormula) (h : Nat) (u : Unrolling) : Prop where
  horizon : u.horizon = h
  clauses : u.store.clauses.Perm (f.initial ++ ((List.range (h + 1)).flatMap f.universalAt ++
    (List.range h).flatMap f.transitionAt))
  numbers : NumbersIn (Set.Icc 1 ((h + 1) * f.stepSize)) u.store.clauses
  reserved : u.store.varCount = (h + 1) * f.stepSize

theorem varCount_addClauses_reserve {s : Cnf.Store} {n : Nat} {cs ds : List Clause}
    (hs : s.varCount ≤ n) (h : NumbersIn (Set.Icc 1 n) (cs ++ ds)) :
    (((s.reserve n).addClauses cs).addClauses ds).varCount = n := by
  have hn : (s.reserve n).varCount = n := Nat.max_eq_right hs
  obtain ⟨hcs, hds⟩ := List.forall_mem_append.mp h
  have hcs : ((s.reserve n).addClauses cs).varCount = n := by
    rw [Cnf.Store.varCount_addClauses fun c hc literal hl ↦ (hcs c hc literal hl).2.trans hn.ge, hn]
  rw [Cnf.Store.varCount_addClauses fun c hc literal hl ↦ (hds c hc literal hl).2.trans hcs.ge, hcs]

/-- The unrolling into an empty store, extended `h` times. -/
def upTo (f : ReachabilityFormula) (h : Nat) : Unrolling :=
  (extend f)^[h] (start f .empty)

theorem upTo_succ (f : ReachabilityFormula) (h : Nat) : upTo f (h + 1) = extend f (upTo f h) :=
  Function.iterate_succ_apply' _ _ _

theorem horizon_upTo (f : ReachabilityFormula) (h : Nat) : (upTo f h).horizon = h := by
  induction h with
  | zero => rfl
  | succ h ih =>
    rw [upTo_succ]
    exact congrArg Nat.succ ih

theorem holds_upTo (f : ReachabilityFormula) (h : Nat) : (upTo f h).Holds f := by
  induction h with
  | zero => exact holds_start f
  | succ h ih =>
    rw [upTo_succ]
    exact ih.extend

theorem clauses_upTo (f : ReachabilityFormula) (h : Nat) :
    (upTo f h).store.clauses = f.unrolled h := by
  have hholds := holds_upTo f h
  rwa [Holds, horizon_upTo] at hholds

theorem varCount_upTo (hf : f.Blockwise) (h : Nat) :
    (upTo f h).store.varCount = (h + 1) * f.stepSize := by
  have hnumbers := hf.numbersIn_unrolled h
  induction h with
  | zero =>
    rw [Nat.zero_add, Nat.one_mul] at hnumbers ⊢
    exact varCount_addClauses_reserve (Nat.zero_le _) hnumbers
  | succ h ih =>
    have hle : (upTo f h).store.varCount ≤ (h + 1 + 1) * f.stepSize := by
      rw [ih (hf.numbersIn_unrolled h)]
      exact Nat.mul_le_mul_right _ (Nat.le_succ _)
    rw [upTo_succ, extend, horizon_upTo]
    exact varCount_addClauses_reserve hle (List.forall_mem_append.mp hnumbers).2

theorem reaches_upTo (hf : f.Blockwise) (h : Nat) : Reaches f h (upTo f h) where
  horizon := horizon_upTo f h
  clauses := clauses_upTo f h ▸ f.unrolled_perm h
  numbers := clauses_upTo f h ▸ hf.numbersIn_unrolled h
  reserved := varCount_upTo hf h

theorem solution_upTo_iff {m : Assignment} :
    (upTo f h).store.Solution ((upTo f h).goal f) m ↔ f.Solves h m := by
  rw [Cnf.Store.Solution, clauses_upTo, goal, horizon_upTo, ReachabilityFormula.Solves]

end Unrolling

/-! ## Idle steps -/

namespace Cnf.Assignment

variable {first m : Assignment}

/-- An assignment of the first variables, and one of the variables after them. -/
def followedBy (first m : Assignment) : Assignment :=
  ⟨first.values ++ m.values⟩

theorem after_followedBy : (first.followedBy m).after first.values.size = m := by
  simp [followedBy, after]

theorem satisfies_followedBy {literal : Literal} (h : literal.var < first.values.size) :
    (first.followedBy m).satisfies literal = first.satisfies literal := by
  rw [satisfies, satisfies, value?, value?, followedBy, Array.getElem?_append_left h]

end Cnf.Assignment

namespace Encoding

variable {p : Problem} {g : Grounding} {strategy : Strategy} {semantics : StepSemantics}
  {mode : EligibilityMode} {e : Encoding} {l : Layout} {m : Assignment}

/-- A block in which nothing is done and the atoms of the universe are as they are initially. -/
structure IsIdle (p : Problem) (g : Grounding) (l : Layout) (m : Assignment) : Prop where
  decided : l.Decided m
  active : ∀ op, op.index < l.operatorCount → ¬m.satisfies (l.active op) = true
  selected : ∀ op, op.index < l.operatorCount → ∀ position, ∀ choice ∈ l.choices op position,
    ¬m.satisfies choice.2 = true
  agrees : Agrees g l m (State.facts p.init)

theorem IsIdle.not_runs (h : IsIdle p g (layoutOf p g mode) m) {op : OperatorId}
    {args : List ConstantId} {role : Role} {atom : GroundAtom} {negated : Bool}
    (hc : p.HasCondition op args role atom negated) : ¬(layoutOf p g mode).Runs m op args := by
  obtain ⟨schema, hop, _⟩ := hc
  exact fun hr ↦ h.active op (index_lt_operatorCount hop) hr.active

theorem IsIdle.isBlock (h : IsIdle p g (layoutOf p g mode) m) :
    IsBlock p g semantics (layoutOf p g mode) m where
  runs op hop ha := absurd ha (h.active op hop)
  selected op hop position choice hc hs := absurd hs (h.selected op hop position choice hc)
  exclusive _ op _ hop _ ha _ := absurd ha (h.active op hop)
  known _ _ _ _ _ hr hc := absurd hr (h.not_runs hc)
  precondition _ _ _ _ _ hr hc _ := absurd hr (h.not_runs hc)
  independent _ _ _ _ _ _ _ hr _ _ hc := absurd hr (h.not_runs hc)

/-- Nothing changes if the next block is as the state is initially, too. -/
theorem IsIdle.isTransition (h : IsIdle p g (layoutOf p g mode) m) {m' : Assignment}
    (hnext : Agrees g (layoutOf p g mode) m' (State.facts p.init)) :
    IsTransition p g (layoutOf p g mode) m m' where
  effect _ _ _ _ _ hr hc _ := absurd hr (h.not_runs hc)
  frame atom negated id hid := by
    by_cases hs : HasSign (State.facts p.init) atom negated
    · exact .inl (h.agrees atom negated id hid hs)
    · exact .inr (.inl (hnext atom (!negated) id hid (hasSign_not_iff.mpr hs)))

/-! ### The idle block of an encoding -/

/-- Whether a fact holds while nothing is done. -/
def idleTruth (p : Problem) (g : Grounding) : Layout.Fact → Bool
  | .holds id => g.atoms[id.index]?.any (· ∈ p.init)
  | _ => false

def idleBlock (p : Problem) (g : Grounding) (l : Layout) : Assignment :=
  l.valuation 0 fun _ ↦ idleTruth p g

theorem size_idleBlock : (idleBlock p g l).values.size = l.size := by
  simp [idleBlock, Layout.valuation, Layout.length_facts]

theorem satisfies_idleBlock_iff {literal : Literal} {fact : Layout.Fact}
    (hf : l.facts[literal.var]? = some fact) :
    ((idleBlock p g l).followedBy m).satisfies literal = true ↔
      idleTruth p g fact = literal.positive := by
  have hlt : literal.var < (idleBlock p g l).values.size :=
    size_idleBlock ▸ Layout.var_lt_size hf
  have hzero : 0 ≤ (0 : Nat) := Nat.le_refl 0
  rw [satisfies_followedBy hlt, idleBlock]
  simpa only [Nat.zero_mul, after_zero] using Layout.satisfies_valuation_iff hzero hf

theorem decides_idleBlock {literal : Literal} {fact : Layout.Fact}
    (hf : l.facts[literal.var]? = some fact) :
    ((idleBlock p g l).followedBy m).Decides literal := by
  have hf' : l.facts[literal.negate.var]? = some fact := hf
  rw [Decides, satisfies_idleBlock_iff hf, satisfies_idleBlock_iff hf', Literal.negate]
  cases idleTruth p g fact <;> cases literal.positive <;> simp

theorem isIdle_followedBy (p : Problem) (g : Grounding) (mode : EligibilityMode) (m : Assignment) :
    IsIdle p g (layoutOf p g mode) ((idleBlock p g (layoutOf p g mode)).followedBy m) where
  decided := by
    refine ⟨fun op hop ↦ decides_idleBlock (Layout.fact_active hop),
      fun op hop position choice hc ↦ ?_⟩
    obtain ⟨i, hi, he⟩ := Layout.mem_choices_iff.mp hc
    exact he ▸ decides_idleBlock (Layout.fact_selected hop hi)
  active op hop := by
    rw [satisfies_idleBlock_iff (Layout.fact_active hop)]
    exact Bool.false_ne_true
  selected op hop position choice hc := by
    obtain ⟨i, hi, he⟩ := Layout.mem_choices_iff.mp hc
    rw [he, satisfies_idleBlock_iff (Layout.fact_selected hop hi)]
    exact Bool.false_ne_true
  agrees atom negated id hid hs := by
    have hfact := Layout.fact_holds (l := layoutOf p g mode) (Grounding.index_lt_of_atomId? hid)
    have htruth : idleTruth p g (.holds id) = decide (atom ∈ p.init) := by
      rw [idleTruth, Grounding.getElem?_of_atomId? hid, Option.any_some]
    have hpositive : decide (atom ∈ p.init) = ((layoutOf p g mode).signed id negated).positive := by
      cases negated <;>
        simpa [HasSign, State.facts, Layout.signed, Layout.holds, Literal.pos, Literal.negate]
          using hs
    refine (satisfies_idleBlock_iff ?_).mpr (htruth.trans hpositive)
    cases negated <;> exact hfact

/-! ## Solutions at the next horizon -/

section Shift

variable {os : List Occurrence} (he : IsEncoding p g strategy e os)

include he

theorem IsEncoding.block_followedBy (k : Nat) :
    e.formula.block ((idleBlock p g e.layout).followedBy m) (k + 1) = e.formula.block m k := by
  have hafter : ((idleBlock p g e.layout).followedBy m).after e.formula.stepSize = m := by
    rw [he.stepSize, ← size_idleBlock (p := p) (g := g)]
    exact after_followedBy
  rw [ReachabilityFormula.block, ReachabilityFormula.block, Nat.succ_mul, Nat.add_comm,
    ← after_after, hafter]

/-- An idle step before a model that starts initially satisfies all the clauses about one step and
about this step and the next one. -/
theorem IsEncoding.models_idleBlock (hg : g.atomTable.Distinct)
    (hnext : Agrees g e.layout m (State.facts p.init)) :
    ((idleBlock p g e.layout).followedBy m).Models e.formula.initial ∧
      ((idleBlock p g e.layout).followedBy m).Models e.formula.universal ∧
      ((idleBlock p g e.layout).followedBy m).Models e.formula.transition := by
  have hidle : IsIdle p g e.layout ((idleBlock p g e.layout).followedBy m) := by
    rw [he.layout]
    exact isIdle_followedBy p g strategy.eligibility m
  have hblock : IsBlock p g strategy.semantics e.layout
      ((idleBlock p g e.layout).followedBy m) := by
    rw [he.layout] at hidle ⊢
    exact hidle.isBlock
  have hfirst : IsTransition p g e.layout ((idleBlock p g e.layout).followedBy m)
      (((idleBlock p g e.layout).followedBy m).after e.layout.size) := by
    rw [← size_idleBlock (p := p) (g := g), after_followedBy]
    rw [he.layout] at hidle hnext ⊢
    exact hidle.isTransition hnext
  refine ⟨?_, he.models_universal hidle.decided hblock,
    he.models_transition hg hidle.decided hblock.runs hfirst⟩
  rw [he.initial]
  exact models_initialClauses_of_agrees hg hidle.agrees

theorem IsEncoding.solves_followedBy (hg : g.atomTable.Distinct) {h : Nat}
    (hm : e.formula.Solves h m) :
    e.formula.Solves (h + 1) ((idleBlock p g e.layout).followedBy m) := by
  obtain ⟨hmodels, hgoal⟩ := hm
  obtain ⟨hinit, huniv, htrans⟩ := ReachabilityFormula.models_unrolled_iff.mp hmodels
  obtain ⟨hinitial, huniversal, htransition⟩ :=
    he.models_idleBlock hg (agrees_of_models_initialClauses (he.initial ▸ hinit))
  refine ⟨ReachabilityFormula.models_unrolled_iff.mpr ⟨hinitial, fun k hk ↦ ?_, fun k hk ↦ ?_⟩, ?_⟩
  · cases k with
    | zero =>
      rw [ReachabilityFormula.block_zero]
      exact huniversal
    | succ k =>
      rw [he.block_followedBy]
      exact huniv k (Nat.le_of_succ_le_succ hk)
  · cases k with
    | zero =>
      rw [ReachabilityFormula.block_zero]
      exact htransition
    | succ k =>
      rw [he.block_followedBy]
      exact htrans k (Nat.lt_of_succ_lt_succ hk)
  · rw [ReachabilityFormula.satisfies_goalAt_iff] at hgoal ⊢
    rwa [he.block_followedBy]

theorem IsEncoding.blockwise (hg : g.atomTable.Distinct) : e.formula.Blockwise where
  initial := he.within_initial hg
  universal := he.within_universal
  transition := he.within_transition

end Shift

/-- **Growing the horizon.** However often an unrolling into an empty store was extended, the store
holds each part of the formula once for each step that the part is about, over the variables of one
block or of two, and all of these variables are reserved. If the clauses have a model with the goal
at the horizon, then after one more extension they have one with the goal at the next horizon. -/
theorem reaches_upTo_and_solution_succ (hg : g.IsBuilt) (he : ofProblem p g strategy = .ok e) :
    (∀ h, Unrolling.Reaches e.formula h (.upTo e.formula h)) ∧
    (∀ k, NumbersIn (Set.Ioc (k * e.formula.stepSize) ((k + 1) * e.formula.stepSize))
      (e.formula.universalAt k)) ∧
    (∀ k, NumbersIn (Set.Ioc (k * e.formula.stepSize) ((k + 2) * e.formula.stepSize))
      (e.formula.transitionAt k)) ∧
    ∀ h, (∃ m, (Unrolling.upTo e.formula h).store.Solution
        ((Unrolling.upTo e.formula h).goal e.formula) m) →
      ∃ m, (Unrolling.upTo e.formula (h + 1)).store.Solution
        ((Unrolling.upTo e.formula (h + 1)).goal e.formula) m := by
  obtain ⟨os, he⟩ := exists_isEncoding he
  have hf := he.blockwise hg.distinctAtoms
  refine ⟨Unrolling.reaches_upTo hf, hf.numbersIn_universalAt, hf.numbersIn_transitionAt, ?_⟩
  rintro h ⟨m, hm⟩
  rw [Unrolling.solution_upTo_iff] at hm
  exact ⟨_, Unrolling.solution_upTo_iff.mpr (he.solves_followedBy hg.distinctAtoms hm)⟩

/-- What the doors need one step for can be done in two, over thirty variables. -/
theorem solution_upTo_doors :
    (Unrolling.upTo doorsRelaxedParallel.formula 2).store.varCount = 30 ∧
      ∃ m, (Unrolling.upTo doorsRelaxedParallel.formula 2).store.Solution
        ((Unrolling.upTo doorsRelaxedParallel.formula 2).goal doorsRelaxedParallel.formula) m := by
  have hr : RelaxedGrounding.ofProblem doors = .ok doorsRelaxed := Fallible.eq_ok_get _
  have he : ofProblem doors doorsRelaxed.grounding ⟨.parallel, .lifted⟩ =
      .ok doorsRelaxedParallel := Fallible.eq_ok_get _
  have hm : doorsRelaxedParallel.formula.Solves 1 doorsParallelModel :=
    ⟨by decide +kernel, by decide +kernel⟩
  obtain ⟨hreaches, _, _, hsucc⟩ :=
    reaches_upTo_and_solution_succ (RelaxedGrounding.isBuilt_of_ofProblem hr) he
  have hsize : doorsRelaxedParallel.formula.stepSize = 10 := by decide +kernel
  refine ⟨?_, hsucc 1 ⟨_, Unrolling.solution_upTo_iff.mpr hm⟩⟩
  rw [(hreaches 2).reserved, hsize]

end Encoding

end LiftedPlanning
