import LiftedPlanning.Encoding.Interference
import LiftedPlanning.Proofs.Encoding.Distribution
import LiftedPlanning.Proofs.Encoding.Occurrence

/-!
# Satisfied frame and interference clauses

The frame clauses of an atom come from a disjunction of conjunctions. They are satisfied exactly if
the disjunction is. No literal has to be decided for that.
-/

namespace LiftedPlanning.Encoding

open Cnf (Assignment Clause Literal)
open Cnf.Assignment

variable {p : Problem} {g : Grounding} {l : Layout} {m : Assignment}

/-! ## Frame clauses -/

theorem models_clausesOfBranches_iff {common : List Literal} {branches : List (List Literal)} :
    m.Models (clausesOfBranches common branches) ↔
      (∃ s ∈ common, m.satisfies s = true) ∨ ∃ b ∈ branches, ∀ s ∈ b, m.satisfies s = true := by
  simp only [Models, satisfiesClause_iff, forall_clausesOfBranches_iff]

/-- The frame clauses of an atom: a sign that it gets is one that it has or that an effect gives it.
-/
theorem models_changeClauses_iff {os : List Occurrence} {a : AtomId} {negated : Bool} :
    m.Models (changeClauses l (supportOf os) a (!negated)) ↔
      m.satisfies (l.signed a negated) = true ∨
      (m.after l.size).satisfies (l.signed a (!negated)) = true ∨
      ∃ o ∈ os, o.atom = some a ∧ o.rule.condition.negated = negated ∧ o.rule.role = .effect ∧
        o.Fires m := by
  rw [changeClauses, models_clausesOfBranches_iff, ← or_assoc]
  refine or_congr ?_ ?_
  · cases negated <;> simp [Layout.signed, satisfies_after, Literal.negate_shift]
  · simp only [List.mem_map, mem_supporters_iff, Occurrence.Fires]
    constructor
    · rintro ⟨_, ⟨_, ⟨o, ho, ha, hn, hr, rfl⟩, rfl⟩, hf⟩
      exact ⟨o, ho, ha, hn, hr, hf⟩
    · rintro ⟨o, ho, ha, hn, hr, hf⟩
      exact ⟨_, ⟨_, ⟨o, ho, ha, hn, hr, rfl⟩, rfl⟩, hf⟩

theorem models_frameClauses_iff {os : List Occurrence} :
    m.Models (frameClauses l (supportOf os)) ↔ ∀ a, a.index < l.atomCount → ∀ negated,
      m.satisfies (l.signed a negated) = true ∨
      (m.after l.size).satisfies (l.signed a (!negated)) = true ∨
      ∃ o ∈ os, o.atom = some a ∧ o.rule.condition.negated = negated ∧ o.rule.role = .effect ∧
        o.Fires m := by
  simp only [frameClauses, Models.flatMap_iff, Layout.mem_atoms_iff, ← models_changeClauses_iff]
  refine forall₂_congr fun a _ ↦ ?_
  simp [and_comm]

/-! ## Interference clauses -/

theorem models_atomInterference_iff {os : List Occurrence} (a : AtomId) (negated : Bool) :
    m.Models (atomInterference (supportOf os) a (!negated)) ↔
      ∀ o ∈ os, ∀ o' ∈ os, o.atom = some a → o'.atom = some a →
        o.rule.role = .effect → o'.rule.role = .precondition →
        o.rule.condition.negated = negated → o'.rule.condition.negated = !negated →
        o'.supporter.binding.operator ≠ o.supporter.binding.operator →
        m.satisfiesClause (exclude o.supporter o'.supporter) = true := by
  simp only [atomInterference, Models.flatMap_iff, Models.map_iff, List.mem_filter,
    decide_eq_true_eq, mem_supporters_iff]
  constructor
  · intro h o ho o' ho' ha ha' hr hr' hn hn' hne
    exact h _ ⟨o, ho, ha, hn, hr, rfl⟩ _ ⟨⟨o', ho', ha', hn', hr', rfl⟩, hne⟩
  · rintro h _ ⟨o, ho, ha, hn, hr, rfl⟩ _ ⟨⟨o', ho', ha', hn', hr', rfl⟩, hne⟩
    exact h o ho o' ho' ha ha' hr hr' hn hn' hne

/-- Effects and preconditions of different operators that give an atom opposite signs exclude each
other. -/
theorem models_interferenceClauses_iff {os : List Occurrence} :
    m.Models (interferenceClauses l (supportOf os)) ↔
      ∀ a, a.index < l.atomCount → ∀ o ∈ os, ∀ o' ∈ os, o.atom = some a → o'.atom = some a →
        o.rule.role = .effect → o'.rule.role = .precondition →
        o'.rule.condition.negated = !o.rule.condition.negated →
        o'.supporter.binding.operator ≠ o.supporter.binding.operator →
        m.satisfiesClause (exclude o.supporter o'.supporter) = true := by
  have hsigns : m.Models (interferenceClauses l (supportOf os)) ↔ ∀ a, a.index < l.atomCount →
      ∀ negated, m.Models (atomInterference (supportOf os) a (!negated)) := by
    simp [interferenceClauses, Models.append_iff, Models.flatMap_iff, Layout.mem_atoms_iff,
      forall_and]
  rw [hsigns]
  constructor
  · intro h a ha o ho o' ho' hoa ho'a hr hr' hn
    exact (models_atomInterference_iff a _).mp (h a ha _) o ho o' ho' hoa ho'a hr hr' rfl hn
  · intro h a ha negated
    refine (models_atomInterference_iff a negated).mpr ?_
    rintro o ho o' ho' hoa ho'a hr hr' rfl hn'
    exact h a ha o ho o' ho' hoa ho'a hr hr' hn'

end LiftedPlanning.Encoding
