import LiftedPlanning.Proofs.Encoding.Step
import LiftedPlanning.Proofs.Encoding.Unrolling

/-!
# The blocks of a model

A model of the unrolled formula of a problem is a sequence of blocks. The first one agrees with the
initial state, each of them meets the universal clauses, and any two in a row meet the transition
clauses. Conversely, a decided sequence of that kind is a model.
-/

namespace LiftedPlanning.Encoding

open Cnf (Assignment Clause Literal)
open Cnf.Assignment

variable {p : Problem} {g : Grounding} {strategy : Strategy} {e : Encoding} {m : Assignment}

/-- In a block, the atoms of the universe have the signs that they have in a set of atoms. -/
def Agrees (g : Grounding) (l : Layout) (m : Assignment) (w : Set GroundAtom) : Prop :=
  ∀ atom negated id, g.atomId? atom = some id → HasSign w atom negated →
    m.satisfies (l.signed id negated) = true

theorem Agrees.hasSign {l : Layout} {w : Set GroundAtom} (h : Agrees g l m w) {atom : GroundAtom}
    {negated : Bool} {id : AtomId} (hid : g.atomId? atom = some id)
    (hs : m.satisfies (l.signed id negated) = true) : HasSign w atom negated := by
  by_contra hn
  have hother := h atom (!negated) id hid (hasSign_not_iff.mpr hn)
  rw [← Layout.negate_signed] at hother
  exact not_satisfies_negate hs hother

/-! ## The parts of an encoding -/

theorem goalLiteral_eq_ok_iff {l : Layout} {c : Condition} {literal : Literal} :
    goalLiteral p g l c = .ok literal ↔ ∃ atom id, c.groundAtom? = some atom ∧
      g.atomId? atom = some id ∧ literal = l.signed id c.negated := by
  rw [goalLiteral]
  split
  · rename_i h
    simp [h]
  · rename_i atom h
    split
    · rename_i hid
      simp [h, hid]
    · rename_i id hid
      simp only [h, Option.some.injEq, Except.ok.injEq, ← Layout.signed.eq_1]
      constructor
      · rintro rfl
        exact ⟨atom, id, rfl, hid, rfl⟩
      · rintro ⟨_, _, rfl, hid', rfl⟩
        rw [Option.some.inj (hid.symm.trans hid')]

theorem ofProblem_eq_ok_iff :
    ofProblem p g strategy = .ok e ↔ ∃ goal rs oss,
      p.goal.mapM (goalLiteral p g (layoutOf p g strategy.eligibility)) = .ok goal ∧
      rules p (layoutOf p g strategy.eligibility).eligibility = .ok rs ∧
      rs.mapM (Rule.occurrences p g (layoutOf p g strategy.eligibility)) = .ok oss ∧
      assemble p g strategy (layoutOf p g strategy.eligibility) goal oss.flatten = e := by
  constructor
  · intro he
    obtain ⟨goal, hgoal, he⟩ := Fallible.bind_eq_ok_iff.mp he
    obtain ⟨rs, hrs, he⟩ := Fallible.bind_eq_ok_iff.mp he
    obtain ⟨oss, hoss, he⟩ := Fallible.bind_eq_ok_iff.mp he
    exact ⟨goal, rs, oss, hgoal, hrs, hoss, Except.ok.inj he⟩
  · rintro ⟨goal, rs, oss, hgoal, hrs, hoss, rfl⟩
    exact Fallible.bind_eq_ok_iff.mpr ⟨goal, hgoal, Fallible.bind_eq_ok_iff.mpr
      ⟨rs, hrs, Fallible.bind_eq_ok_iff.mpr ⟨oss, hoss, rfl⟩⟩⟩

/-- What an encoding is put together from. -/
structure IsEncoding (p : Problem) (g : Grounding) (strategy : Strategy) (e : Encoding)
    (os : List Occurrence) : Prop where
  layout : e.layout = layoutOf p g strategy.eligibility
  stepSize : e.formula.stepSize = e.layout.size
  initial : e.formula.initial = initialClauses p g e.layout
  universal : e.formula.universal = universalClauses e.layout strategy.semantics os
  transition : e.formula.transition = transitionClauses e.layout os
  goal : List.Forall₂ (fun c literal ↦ goalLiteral p g e.layout c = .ok literal) p.goal
    e.formula.goal
  covers : Covers p g (layoutOf p g strategy.eligibility) os

theorem isEncoding_assemble {goal : List Literal} {rs : List Rule} {oss : List (List Occurrence)}
    (hgoal : p.goal.mapM (goalLiteral p g (layoutOf p g strategy.eligibility)) = .ok goal)
    (hrs : rules p (layoutOf p g strategy.eligibility).eligibility = .ok rs)
    (hoss : rs.mapM (Rule.occurrences p g (layoutOf p g strategy.eligibility)) = .ok oss) :
    IsEncoding p g strategy
      (assemble p g strategy (layoutOf p g strategy.eligibility) goal oss.flatten) oss.flatten := by
  refine ⟨rfl, rfl, rfl, ?_, rfl, Fallible.mapM_eq_ok_iff.mp hgoal, ?_, ?_⟩
  · obtain ⟨semantics, _⟩ := strategy
    cases semantics <;> rfl
  · exact fun o ↦ mem_occurrences_iff hrs hoss
  · intro op schema hop hsel
    obtain ⟨name, hop⟩ := Problem.operator?_eq_some_iff.mp hop
    exact (rules_eq_ok_iff.mp hrs).1 _ hop hsel

theorem exists_isEncoding (he : ofProblem p g strategy = .ok e) :
    ∃ os, IsEncoding p g strategy e os := by
  obtain ⟨goal, rs, oss, hgoal, hrs, hoss, rfl⟩ := ofProblem_eq_ok_iff.mp he
  exact ⟨oss.flatten, isEncoding_assemble hgoal hrs hoss⟩

/-- The semantics only matters when an encoding is put together. -/
theorem exists_assemble {semantics : StepSemantics} {mode : EligibilityMode}
    (he : ofProblem p g ⟨semantics, mode⟩ = .ok e) :
    ∃ goal os, ∀ semantics' : StepSemantics,
      ofProblem p g ⟨semantics', mode⟩ =
        .ok (assemble p g ⟨semantics', mode⟩ (layoutOf p g mode) goal os) ∧
      IsEncoding p g ⟨semantics', mode⟩
        (assemble p g ⟨semantics', mode⟩ (layoutOf p g mode) goal os) os := by
  obtain ⟨goal, rs, oss, hgoal, hrs, hoss, _⟩ := ofProblem_eq_ok_iff.mp he
  refine ⟨goal, oss.flatten, fun semantics' ↦ ⟨?_, isEncoding_assemble hgoal hrs hoss⟩⟩
  exact ofProblem_eq_ok_iff.mpr ⟨goal, rs, oss, hgoal, hrs, hoss, rfl⟩

/-- A problem can be encoded exactly if its goal is ground and known and the operators that can be
selected are simple. -/
theorem exists_ofProblem_iff :
    (∃ e, ofProblem p g strategy = .ok e) ↔
      (∀ c ∈ p.goal, ∃ atom, c.groundAtom? = some atom ∧ atom ∈ g.atoms) ∧
        ∀ op schema, p.operator? op = some schema →
          (eligibility p g strategy.eligibility).isSelectable op = true → schema.Simple := by
  constructor
  · rintro ⟨e, he⟩
    obtain ⟨os, he⟩ := exists_isEncoding he
    refine ⟨fun c hc ↦ ?_, he.covers.simple⟩
    obtain ⟨literal, _, hok⟩ := Fallible.exists_right he.goal hc
    obtain ⟨atom, id, ha, hid, _⟩ := goalLiteral_eq_ok_iff.mp hok
    exact ⟨atom, ha, Grounding.isSome_atomId?_iff.mp (Option.isSome_of_eq_some hid)⟩
  · rintro ⟨hgoal, hsimple⟩
    obtain ⟨goal, hgoal⟩ := Fallible.exists_mapM_eq_ok
      (f := goalLiteral p g (layoutOf p g strategy.eligibility)) fun c hc ↦ by
        obtain ⟨atom, ha, hm⟩ := hgoal c hc
        obtain ⟨id, hid⟩ := Grounding.exists_atomId? hm
        exact ⟨_, goalLiteral_eq_ok_iff.mpr ⟨atom, id, ha, hid, rfl⟩⟩
    have hrs := rules_eq_ok_iff.mpr
      ⟨fun (entry : OperatorId × String × Operator) hentry
        (hsel : (layoutOf p g strategy.eligibility).eligibility.isSelectable entry.1 = true) ↦
          hsimple entry.1 entry.2.2 (Problem.operator?_eq_some_iff.mpr ⟨_, hentry⟩) hsel, rfl⟩
    obtain ⟨oss, hoss⟩ := Fallible.exists_mapM_eq_ok
      (f := Rule.occurrences p g (layoutOf p g strategy.eligibility)) fun r hr ↦
        Fallible.exists_mapM_eq_ok fun choice hc ↦
          exists_occurrence ((mem_rules_iff hrs).mp hr) hc
    exact ⟨_, ofProblem_eq_ok_iff.mpr ⟨goal, _, oss, hgoal, hrs, hoss, rfl⟩⟩

theorem exists_ofProblem
    (hgoal : ∀ c ∈ p.goal, ∃ atom, c.groundAtom? = some atom ∧ atom ∈ g.atoms)
    (hsimple : ∀ op schema, p.operator? op = some schema → schema.Simple) (strategy : Strategy) :
    ∃ e, ofProblem p g strategy = .ok e :=
  exists_ofProblem_iff.mpr ⟨hgoal, fun op schema hop _ ↦ hsimple op schema hop⟩

/-! ## The initial state and the goal -/

theorem models_initialClauses_iff {l : Layout} :
    m.Models (initialClauses p g l) ↔ ∀ i atom, g.atoms[i]? = some atom →
      m.satisfies (l.signed ⟨i⟩ (decide (atom ∉ p.init))) = true := by
  have hclause : ∀ atom i, m.satisfiesClause
      (if atom ∈ p.init then [l.holds ⟨i⟩] else [(l.holds ⟨i⟩).negate]) = true ↔
        m.satisfies (l.signed ⟨i⟩ (decide (atom ∉ p.init))) = true := by
    intro atom i
    by_cases h : atom ∈ p.init <;> simp [h, Layout.signed]
  simp only [initialClauses, Models.map_iff, Prod.forall, List.mem_zipIdx_iff_getElem?, hclause]
  exact forall_comm

theorem hasSign_decide {s : State} {atom : GroundAtom} {negated : Bool}
    (h : HasSign s.facts atom negated) : decide (atom ∉ s) = negated := by
  cases negated <;> simpa [HasSign, State.facts] using h

theorem agrees_of_models_initialClauses {l : Layout} (h : m.Models (initialClauses p g l)) :
    Agrees g l m (State.facts p.init) := by
  intro atom negated id hid hs
  have hlit := models_initialClauses_iff.mp h _ _ (Grounding.getElem?_of_atomId? hid)
  rwa [hasSign_decide hs] at hlit

theorem models_initialClauses_of_agrees {l : Layout} (hg : g.atomTable.Distinct)
    (h : Agrees g l m (State.facts p.init)) : m.Models (initialClauses p g l) := by
  refine models_initialClauses_iff.mpr fun i atom hi ↦ ?_
  exact h atom _ ⟨i⟩ (Grounding.atomId?_of_getElem? hg hi) (by simp [HasSign, State.facts])

theorem IsEncoding.satisfies_goal_iff {os : List Occurrence} (he : IsEncoding p g strategy e os)
    {w : Set GroundAtom} (h : Agrees g e.layout m w) :
    (∀ s ∈ e.formula.goal, m.satisfies s = true) ↔ Plan.GoalHolds p w := by
  constructor
  · intro hs c hc
    obtain ⟨literal, hl, hok⟩ := Fallible.exists_right he.goal hc
    obtain ⟨atom, id, ha, hid, rfl⟩ := goalLiteral_eq_ok_iff.mp hok
    exact ⟨atom, ha, h.hasSign hid (hs _ hl)⟩
  · intro hw s hs
    obtain ⟨c, hc, hok⟩ := Fallible.exists_left he.goal hs
    obtain ⟨atom, id, ha, hid, rfl⟩ := goalLiteral_eq_ok_iff.mp hok
    obtain ⟨atom', ha', hsign⟩ := hw c hc
    obtain rfl : atom = atom' := Option.some.inj (ha.symm.trans ha')
    exact h atom _ id hid hsign

/-! ## Single steps -/

section Steps

variable {os : List Occurrence} (he : IsEncoding p g strategy e os)

include he

theorem IsEncoding.isBlock (h : m.Models e.formula.universal) :
    IsBlock p g strategy.semantics e.layout m := by
  rw [he.universal, he.layout] at h
  rw [he.layout]
  exact isBlock_of_models he.covers h

theorem IsEncoding.models_universal (hd : e.layout.Decided m)
    (h : IsBlock p g strategy.semantics e.layout m) : m.Models e.formula.universal := by
  rw [he.universal]
  rw [he.layout] at hd h ⊢
  exact models_of_isBlock he.covers hd h

theorem IsEncoding.isTransition (hruns : e.layout.ActiveRun m)
    (h : m.Models e.formula.transition) :
    IsTransition p g e.layout m (m.after e.layout.size) := by
  rw [he.transition] at h
  rw [he.layout] at hruns h ⊢
  exact isTransition_of_models he.covers hruns h

theorem IsEncoding.models_transition (hg : g.atomTable.Distinct) (hd : e.layout.Decided m)
    (hruns : e.layout.ActiveRun m) (h : IsTransition p g e.layout m (m.after e.layout.size)) :
    m.Models e.formula.transition := by
  rw [he.transition]
  rw [he.layout] at hd hruns h ⊢
  exact models_of_isTransition he.covers hg hd hruns h

end Steps

/-! ## Sequences of blocks -/

/-- The blocks of the steps up to a horizon. -/
structure IsRun (p : Problem) (g : Grounding) (semantics : StepSemantics) (l : Layout)
    (block : Nat → Assignment) (horizon : Nat) : Prop where
  initial : Agrees g l (block 0) (State.facts p.init)
  isBlock : ∀ k ≤ horizon, IsBlock p g semantics l (block k)
  isTransition : ∀ k < horizon, IsTransition p g l (block k) (block (k + 1))

section Model

variable {os : List Occurrence} (he : IsEncoding p g strategy e os) {horizon : Nat}

include he

theorem IsEncoding.block_succ (k : Nat) :
    (e.formula.block m k).after e.layout.size = e.formula.block m (k + 1) := by
  rw [← he.stepSize, ReachabilityFormula.block_after]

/-- **Models are runs.** -/
theorem IsEncoding.isRun_of_models (hm : m.Models (e.formula.unrolled horizon)) :
    IsRun p g strategy.semantics e.layout (e.formula.block m) horizon := by
  obtain ⟨hinit, huniv, htrans⟩ := ReachabilityFormula.models_unrolled_iff.mp hm
  rw [he.initial] at hinit
  have hblock : ∀ k ≤ horizon, IsBlock p g strategy.semantics e.layout (e.formula.block m k) :=
    fun k hk ↦ he.isBlock (huniv k hk)
  refine ⟨?_, hblock, fun k hk ↦ ?_⟩
  · rw [ReachabilityFormula.block_zero]
    exact agrees_of_models_initialClauses hinit
  · rw [← he.block_succ]
    exact he.isTransition (hblock k (Nat.le_of_lt hk)).runs (htrans k hk)

/-- **Decided runs are models.** -/
theorem IsEncoding.models_of_isRun (hg : g.atomTable.Distinct)
    (hd : ∀ k ≤ horizon, e.layout.Decided (e.formula.block m k))
    (h : IsRun p g strategy.semantics e.layout (e.formula.block m) horizon) :
    m.Models (e.formula.unrolled horizon) := by
  refine ReachabilityFormula.models_unrolled_iff.mpr ⟨?_, fun k hk ↦ ?_, fun k hk ↦ ?_⟩
  · have hinit := h.initial
    rw [ReachabilityFormula.block_zero] at hinit
    rw [he.initial]
    exact models_initialClauses_of_agrees hg hinit
  · exact he.models_universal (hd k hk) (h.isBlock k hk)
  · have hk' := Nat.le_of_lt hk
    have htrans := h.isTransition k hk
    rw [← he.block_succ] at htrans
    exact he.models_transition hg (hd k hk') (h.isBlock k hk').runs htrans

end Model

end LiftedPlanning.Encoding
