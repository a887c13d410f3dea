import LiftedPlanning.Proofs.Encoding.Lookup
import LiftedPlanning.Proofs.Problem.History

/-!
# Problems that can be encoded

A problem that was built operation by operation cannot be encoded for two reasons only. A goal atom
is not in the universe, or an operator that can be selected has a formula that is no conjunction of
conditions over its parameters. The formulas of the other operators do not matter. What an encoding
then says of a step, and of two steps, is about the variables of one block, and of two.
-/

namespace LiftedPlanning

namespace Encoding

open Cnf (NumbersIn)

variable {p : Problem} {g : Grounding} {strategy : Strategy} {e : Encoding}

/-- The parts of an encoding are about the variables of their steps, and each atom of the universe
has exactly one initial clause, in order: a literal that gives it the sign that it has initially. -/
structure Ranged (p : Problem) (g : Grounding) (e : Encoding) : Prop where
  initial : NumbersIn (Set.Icc 1 e.formula.stepSize) e.formula.initial
  goal : ∀ literal ∈ e.formula.goal, literal.number ∈ Set.Icc 1 e.formula.stepSize
  universal : NumbersIn (Set.Icc 1 e.formula.stepSize) e.formula.universal
  transition : NumbersIn (Set.Icc 1 (2 * e.formula.stepSize)) e.formula.transition
  atoms : g.atoms.Nodup
  units : List.Forall₂ (fun atom clause ↦ ∃ id, g.atomId? atom = some id ∧
    clause = [e.layout.signed id (decide (atom ∉ p.init))]) g.atoms e.formula.initial

theorem ranged_of_ofProblem (hg : g.IsBuilt) (he : ofProblem p g strategy = .ok e) :
    e.Ranged p g := by
  obtain ⟨os, he⟩ := exists_isEncoding he
  have hdistinct := hg.distinctAtoms
  refine ⟨(he.within_initial hdistinct).numbersIn, fun literal hl ↦ ?_,
    he.within_universal.numbersIn, he.within_transition.numbersIn, ?_, ?_⟩
  · exact ⟨Nat.succ_pos _, he.var_goal_lt literal hl⟩
  · exact .of_map _ hdistinct
  · rw [he.initial]
    exact forall₂_initialClauses hdistinct

theorem not_exists_ofProblem_iff (hgoal : ∀ c ∈ p.goal, c.isGround = true) :
    (¬∃ e, ofProblem p g strategy = .ok e) ↔
      (∃ c ∈ p.goal, ∃ atom, c.groundAtom? = some atom ∧ atom ∉ g.atoms) ∨
      ∃ op schema, p.operator? op = some schema ∧
        (eligibility p g strategy.eligibility).isSelectable op = true ∧ ¬schema.Simple := by
  rw [exists_ofProblem_iff, not_and_or]
  refine or_congr ?_ (by simp only [not_forall, exists_prop])
  simp only [not_forall, exists_prop]
  refine exists_congr fun c ↦ and_congr_right fun hc ↦ ?_
  obtain ⟨atom, ha⟩ := Condition.exists_groundAtom? (hgoal c hc)
  simp [ha]

/-- **When a problem can be encoded.** The encoding fails exactly if some goal atom is not in the
universe, or some operator that has an eligible constant at each position has a formula with a
residual or with a variable that is no parameter. The pass that grounds and looks things up as it
goes fails no more often, and what is returned is about the variables of its steps. -/
theorem exists_ofProblem_error_iff (hp : p.IsBuilt) (hg : g.IsBuilt) (strategy : Strategy) :
    ((∃ err, ofProblem p g strategy = .error err) ↔
      (∃ c ∈ p.goal, ∃ atom, c.groundAtom? = some atom ∧ atom ∉ g.atoms) ∨
      ∃ op schema, p.operator? op = some schema ∧
        (∀ set ∈ (eligibility p g strategy.eligibility).setsOf op, set ≠ []) ∧
        ∃ role, (schema.formula role).residual ≠ none ∨
          ∃ c ∈ (schema.formula role).conditions, ∃ v ∈ c.vars, v ∉ schema.parameters) ∧
    ((layoutOf p g strategy.eligibility).size < signBound →
      OnePass.ofProblem p g strategy = (ofProblem p g strategy).mapError .encoding) ∧
    ∀ e, ofProblem p g strategy = .ok e → e.Ranged p g := by
  refine ⟨?_, OnePass.ofProblem_eq, fun e he ↦ ranged_of_ofProblem hg he⟩
  rw [Fallible.exists_eq_error_iff,
    not_exists_ofProblem_iff fun c hc ↦ (hp.consistent.goal c hc).2]
  simp only [Eligibility.isSelectable_iff, Operator.not_simple_iff]

/-- The harbour, where sailing now needs a boat at one of the two ends. -/
def boatHarbour : Problem :=
  Problem.harbour.after (.precondition ⟨0⟩ (.disj
    [.literal (.positive ⟨0⟩ [.param ⟨0⟩]), .literal (.positive ⟨0⟩ [.param ⟨1⟩])]))

/-- A grounding with the only atom of the harbour and without actions. -/
def harbourGrounding : Grounding :=
  (Grounding.empty.addAtom ⟨⟨0⟩, [⟨0⟩]⟩).2

/-- What needs a boat is no conjunction. That matters only if sailing can be selected, for which a
known action is missing if constants are eligible by reachability. -/
theorem exists_error_boatHarbour :
    (∃ err, ofProblem boatHarbour harbourGrounding ⟨.parallel, .lifted⟩ = .error err) ∧
      ∃ e, ofProblem boatHarbour harbourGrounding ⟨.parallel, .grounded⟩ = .ok e ∧
        e.Ranged boatHarbour harbourGrounding := by
  have hp : boatHarbour.IsBuilt := Problem.isBuilt_harbour.after (by decide +kernel)
  have hg : harbourGrounding.IsBuilt := .addAtom .empty _
  have hresidual : ∃ schema, boatHarbour.operator? ⟨0⟩ = some schema ∧
      schema.precondition.residual ≠ none := by
    refine ⟨(boatHarbour.operator? ⟨0⟩).get (by decide +kernel),
      (Option.some_get _).symm, ?_⟩
    rw [← Option.isSome_iff_ne_none]
    decide +kernel
  obtain ⟨schema, hop, hres⟩ := hresidual
  refine ⟨(exists_ofProblem_error_iff hp hg _).1.mpr (.inr ⟨⟨0⟩, schema, hop, by decide +kernel,
    .precondition, .inl hres⟩), ?_⟩
  exact ⟨(ofProblem boatHarbour harbourGrounding ⟨.parallel, .grounded⟩).toOption.get
    (by decide +kernel), Fallible.eq_ok_get _,
    (exists_ofProblem_error_iff hp hg _).2.2 _ (Fallible.eq_ok_get _)⟩

end Encoding

end LiftedPlanning
