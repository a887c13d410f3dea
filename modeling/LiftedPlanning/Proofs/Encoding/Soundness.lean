import LiftedPlanning.Proofs.Encoding.Blocks
import LiftedPlanning.Proofs.Plan.Decoding

/-!
# Decoded plans are accepted

The atoms of the blocks of a model follow the execution of the decoded plan. The initial clauses
start this off. In a step, the effect clauses carry over what the actions change, and the frame
clauses carry over the rest, because an effect that changes an atom is an effect of an action of
that step. The universe need not contain every atom of the initial state: the atoms that it contains
agree, and the actions mention no others.
-/

namespace LiftedPlanning.Encoding

open Cnf (Assignment Clause Literal)

variable {p : Problem} {g : Grounding} {mode : EligibilityMode} {strategy : Strategy} {e : Encoding}
  {os : List Occurrence} {m : Assignment} {horizon k : Nat} {plan : Plan} {w : Set GroundAtom}

/-! ## Single steps -/

/-- The operators of the problem that run in a block are those of some actions. -/
def IsStepOf (p : Problem) (l : Layout) (m : Assignment) (actions : List Action) : Prop :=
  ∀ op schema args, p.operator? op = some schema →
    (l.Runs m op args ↔ ∃ a ∈ actions, a.operator = op ∧ a.args = args)

theorem IsStepOf.brings_iff {l : Layout} {actions : List Action} (h : IsStepOf p l m actions)
    {atom : GroundAtom} {negated : Bool} :
    Plan.Brings p actions atom negated ↔
      ∃ op args, l.Runs m op args ∧ p.HasCondition op args .effect atom negated := by
  constructor
  · rintro ⟨a, ha, hc⟩
    have ⟨schema, hop, _⟩ := hc
    exact ⟨_, _, (h _ schema _ hop).mpr ⟨a, ha, rfl, rfl⟩, hc⟩
  · rintro ⟨op, args, hr, hc⟩
    have ⟨schema, hop, _⟩ := hc
    obtain ⟨a, ha, rfl, rfl⟩ := (h op schema args hop).mp hr
    exact ⟨a, ha, hc⟩

/-- **Agreement is preserved.** -/
theorem Agrees.progress {l : Layout} {m' : Assignment} {actions : List Action}
    (ha : Agrees g l m w) (ht : IsTransition p g l m m') (hs : IsStepOf p l m actions) :
    Agrees g l m' (Plan.progress p actions w) := by
  intro atom negated id hid hsign
  rcases Plan.hasSign_progress hsign with hb | ⟨hw, hnot⟩
  · obtain ⟨op, args, hr, hc⟩ := hs.brings_iff.mp hb
    exact ht.effect op args atom negated id hr hc hid
  -- nothing brings the other sign, so no effect that fires does
  · have hnow := ha atom negated id hid hw
    rcases ht.frame atom (!negated) id hid with hother | hnext | ⟨op, args, hr, hc⟩
    · rw [← Layout.negate_signed] at hother
      exact absurd hother (Assignment.not_satisfies_negate hnow)
    · rwa [Bool.not_not] at hnext
    · exact absurd (hs.brings_iff.mpr ⟨op, args, hr, hc⟩) hnot

theorem applicable_of_runs {semantics : StepSemantics}
    (hos : Covers p g (layoutOf p g mode) os)
    (hb : IsBlock p g semantics (layoutOf p g mode) m) (ha : Agrees g (layoutOf p g mode) m w)
    {a : Action} (hop : a.operator.index < (layoutOf p g mode).operatorCount)
    (hr : (layoutOf p g mode).Runs m a.operator a.args) : Plan.Applicable p w a := by
  rw [operatorCount_layoutOf] at hop
  obtain ⟨schema, hschema⟩ := Problem.exists_operator? hop
  have hsimple := hos.simple _ schema hschema
    (Eligibility.isSelectable_of_mem (mem_combinations_of_runs hr))
  have hlen : a.args.length = schema.arity := hr.length.trans (arity_layoutOf hschema)
  refine ⟨fun role ↦ Plan.exists_groundConditions hschema (hsimple role).1 (hsimple role).2 hlen,
    fun atom negated hc ↦ ?_⟩
  obtain ⟨id, hid⟩ := hb.known _ _ _ atom negated hr hc
  exact ha.hasSign hid (hb.precondition _ _ atom negated id hr hc hid)

/-! ## Whole plans -/

section Decoded

variable (he : IsEncoding p g strategy e os)

include he

theorem IsEncoding.block_eq (k : Nat) : e.formula.block m k = m.after (k * e.layout.size) := by
  rw [ReachabilityFormula.block, he.stepSize]

theorem IsEncoding.isStepOf_of_decode (hd : Plan.decode e.layout g m horizon = .ok plan)
    (hk : k < horizon) : IsStepOf p e.layout (e.formula.block m k) (plan.actionsAt k) := by
  intro op schema args hop
  rw [he.block_eq]
  constructor
  · intro hr
    have hlt : op.index < e.layout.operatorCount := by
      rw [he.layout]
      exact index_lt_operatorCount hop
    obtain ⟨a, ha, rfl⟩ := Plan.exists_mem_actionsAt_of_decode hd hk hlt hr.active
    obtain ⟨_, _, hr', _⟩ := Plan.mem_actionsAt_of_decode hd ha
    exact ⟨a, ha, rfl, hr'.unique hr⟩
  · rintro ⟨a, ha, rfl, rfl⟩
    exact (Plan.mem_actionsAt_of_decode hd ha).2.2.1

/-- The atoms of the blocks follow the execution of the decoded plan. -/
theorem IsEncoding.agrees_factsAt
    (hrun : IsRun p g strategy.semantics e.layout (e.formula.block m) horizon)
    (hd : Plan.decode e.layout g m horizon = .ok plan) (hk : k ≤ horizon) :
    Agrees g e.layout (e.formula.block m k) (plan.factsAt p k) := by
  induction k with
  | zero => exact hrun.initial
  | succ k ih =>
    have hlt : k < horizon := Nat.lt_of_succ_le hk
    exact (ih (Nat.le_of_lt hlt)).progress (hrun.isTransition k hlt) (he.isStepOf_of_decode hd hlt)

theorem IsEncoding.applicable_of_decode
    (hrun : IsRun p g strategy.semantics e.layout (e.formula.block m) horizon)
    (hd : Plan.decode e.layout g m horizon = .ok plan) (hk : k < horizon) {a : Action}
    (ha : a ∈ plan.actionsAt k) : Plan.Applicable p (plan.factsAt p k) a := by
  obtain ⟨_, hop, hr, _⟩ := Plan.mem_actionsAt_of_decode hd ha
  have hblock := hrun.isBlock k (Nat.le_of_lt hk)
  have hagrees := he.agrees_factsAt hrun hd (Nat.le_of_lt hk)
  rw [← he.block_eq] at hr
  rw [he.layout] at hop hr hblock hagrees
  exact applicable_of_runs he.covers hblock hagrees hop hr

theorem IsEncoding.check_of_isRun
    (hrun : IsRun p g strategy.semantics e.layout (e.formula.block m) horizon)
    (hgoal : ∀ s ∈ e.formula.goalAt horizon, m.satisfies s = true)
    (hd : Plan.decode e.layout g m horizon = .ok plan) : plan.check p = .ok () := by
  have hmakespan := Plan.makespan_of_decode hd
  refine Plan.check_eq_ok_iff.mpr ⟨fun k hk a ha ↦ ?_, ?_⟩
  · exact he.applicable_of_decode hrun hd (hmakespan ▸ hk) ha
  · rw [hmakespan]
    exact (he.satisfies_goal_iff (he.agrees_factsAt hrun hd (Nat.le_refl horizon))).mp
      (ReachabilityFormula.satisfies_goalAt_iff.mp hgoal)

end Decoded

/-! ## An example

Doors can be opened, and bells rung at closed doors. The grounding by hand lacks an atom of the
initial state and some of the actions. -/

/-- Opening a door of two, and ringing at the other one. -/
def doors : Problem where
  types := ⟨{ kind := "type", entries := [("door", [])] }⟩
  constants := { kind := "constant", entries := [("a", ⟨0⟩), ("b", ⟨0⟩)] }
  predicates := { kind := "predicate", entries := [("opened", [⟨0⟩]), ("rung", [⟨0⟩])] }
  parameters := [("x", ⟨0⟩), ("x", ⟨0⟩)]
  operators :=
    { kind := "operator"
      entries := [
        ("open",
          { parameters := [⟨0⟩]
            precondition := .ofConditions [.negative ⟨0⟩ [.param ⟨0⟩]]
            effect := .ofConditions [.positive ⟨0⟩ [.param ⟨0⟩]] }),
        ("ring",
          { parameters := [⟨1⟩]
            precondition := .ofConditions [.negative ⟨0⟩ [.param ⟨1⟩]]
            effect := .ofConditions [.positive ⟨1⟩ [.param ⟨1⟩]] })] }
  init := [⟨⟨1⟩, [⟨0⟩]⟩]
  goal := [.positive ⟨0⟩ [.const ⟨0⟩], .positive ⟨1⟩ [.const ⟨1⟩]]

/-- The atoms and actions for a plan of one step. -/
def doorsGrounding : Grounding where
  atomTable := [⟨⟨0⟩, [⟨0⟩]⟩, ⟨⟨0⟩, [⟨1⟩]⟩, ⟨⟨1⟩, [⟨1⟩]⟩].foldl Roster.insert .empty
  actionTable := [⟨0, ⟨0⟩, [⟨0⟩], "open(a)"⟩, ⟨1, ⟨1⟩, [⟨1⟩], "ring(b)"⟩].foldl Roster.insert .empty

def doorsEncoding : Encoding :=
  (ofProblem doors doorsGrounding ⟨.parallel, .lifted⟩).toOption.get (by decide +kernel)

/-- A model of two blocks, the second one without actions. -/
def doorsModel : Assignment :=
  ⟨#[true, true, true, false, false, true, false, false, false,
    false, false, false, false, false, false, true, false, true].map some⟩

def doorsPlan : Plan :=
  ⟨1, [(0, ⟨0, ⟨0⟩, [⟨0⟩], "open(a)"⟩), (0, ⟨1, ⟨1⟩, [⟨1⟩], "ring(b)"⟩)]⟩

/-! ## Soundness -/

/-- **Soundness of the encoding.** A plan that is decoded from a model of the unrolled formula and
the goal is accepted, and has as many steps as the formula was unrolled to. The model may be
partial, and the grounding may hold any atoms and actions. -/
theorem check_of_decode (he : ofProblem p g strategy = .ok e)
    (hm : m.Models (e.formula.unrolled horizon))
    (hgoal : ∀ s ∈ e.formula.goalAt horizon, m.satisfies s = true)
    (hd : Plan.decode e.layout g m horizon = .ok plan) :
    plan.check p = .ok () ∧ plan.makespan = horizon := by
  obtain ⟨os, hos⟩ := exists_isEncoding he
  exact ⟨hos.check_of_isRun (hos.isRun_of_models hm) hgoal hd, Plan.makespan_of_decode hd⟩

theorem check_doorsPlan :
    Plan.decode doorsEncoding.layout doorsGrounding doorsModel 1 = .ok doorsPlan ∧
      doorsPlan.check doors = .ok () ∧ doorsPlan.makespan = 1 := by
  have hd : Plan.decode doorsEncoding.layout doorsGrounding doorsModel 1 = .ok doorsPlan := by
    decide +kernel
  exact ⟨hd, check_of_decode (Fallible.eq_ok_get _) (by decide +kernel) (by decide +kernel) hd⟩

end LiftedPlanning.Encoding
