import LiftedPlanning.Proofs.Encoding.Successor
import LiftedPlanning.Proofs.Encoding.Support

/-!
# Actions that interfere

The interference clauses come from the support index, that is from bindings of the parameters that
a condition mentions, one pair of bindings at a time. Over a total block that selects one constant
for each parameter of an active operator, all pairs together say what is meant of full actions: no
action gives an atom of the universe the sign opposite to what an action of another operator needs.
-/

namespace LiftedPlanning.Encoding

open Cnf (Assignment)
open Cnf.Assignment

variable {p : Problem} {g : Grounding} {mode : EligibilityMode} {e : Encoding} {m : Assignment}
  {os : List Occurrence}

theorem Covers.models_interferenceClauses_iff (hos : Covers p g (layoutOf p g mode) os)
    (hd : (layoutOf p g mode).Decided m) (hruns : (layoutOf p g mode).ActiveRun m) :
    m.Models (interferenceClauses (layoutOf p g mode) (supportOf os)) ↔
      ∀ atom ∈ g.atoms, ¬Interferes p (layoutOf p g mode) m atom := by
  constructor
  · intro h atom hatom
    obtain ⟨id, hid⟩ := Grounding.exists_atomId? hatom
    exact hos.not_interferes hid h
  · intro h
    refine hos.models_interferenceClauses hd hruns fun atom id hid ↦ h atom ?_
    exact Grounding.isSome_atomId?_iff.mp (Option.isSome_of_eq_some hid)

/-- **The interference clauses forbid exactly the interfering pairs.** Take the parallel encoding of
a problem and a total block that satisfies its selection clauses, so that every active operator runs
with one list of arguments. The interference clauses, which are the last universal clauses of the
encoding, are satisfied if and only if there are no two operators that run, and no atom of the
universe, such that an effect of the one gives the atom a sign and a precondition of the other one
requires the opposite sign. -/
theorem models_interferenceClauses_iff_not_interferes
    (he : ofProblem p g ⟨.parallel, mode⟩ = .ok e)
    (htotal : ∀ v < e.layout.size, (m.value? v).isSome = true)
    (hselection : m.Models (selectionClauses e.layout .parallel)) :
    (∃ clauses, e.formula.universal = selectionClauses e.layout .parallel ++ clauses ++
      interferenceClauses e.layout e.support) ∧
    (∀ op ∈ e.layout.operators, m.satisfies (e.layout.active op) = true →
      ∃! args, e.layout.Runs m op args) ∧
    (m.Models (interferenceClauses e.layout e.support) ↔
      ∀ atom ∈ g.atoms, ¬Interferes p e.layout m atom) := by
  obtain ⟨os, hos, hsupport⟩ := exists_isEncoding_support he
  have hdecided := Layout.decided_of_isSome htotal
  have hruns := activeRun_of_models hselection
  refine ⟨⟨os.filterMap (·.universalClause? e.layout), ?_⟩, fun op hop hactive ↦ ?_, ?_⟩
  · rw [hos.universal, hsupport]
    rfl
  · obtain ⟨args, hr⟩ := hruns op (Layout.mem_operators_iff.mp hop) hactive
    exact ⟨args, hr, fun args' hr' ↦ hr'.unique hr⟩
  · rw [hos.layout] at hdecided hruns ⊢
    rw [hsupport]
    exact hos.covers.models_interferenceClauses_iff hdecided hruns

/-- A block that rings at the door that is being opened. -/
def doorsClash : Assignment :=
  ⟨#[true, true, true, false, true, false, true, false, false, false].map some⟩

/-- Opening a door and ringing at the other one do not interfere, but at the same one they do. -/
theorem not_interferes_doors :
    ofProblem doors doorsRelaxed.grounding ⟨.parallel, .lifted⟩ = .ok doorsRelaxedParallel ∧
      (∀ v < doorsRelaxedParallel.layout.size, (doorsClash.value? v).isSome = true) ∧
      doorsClash.Models (selectionClauses doorsRelaxedParallel.layout .parallel) ∧
      (∃ atom ∈ doorsRelaxed.grounding.atoms,
        Interferes doors doorsRelaxedParallel.layout doorsClash atom) ∧
      ∀ atom ∈ doorsRelaxed.grounding.atoms,
        ¬Interferes doors doorsRelaxedParallel.layout doorsParallelModel atom := by
  have he : ofProblem doors doorsRelaxed.grounding ⟨.parallel, .lifted⟩ =
      .ok doorsRelaxedParallel := Fallible.eq_ok_get _
  have htotal : ∀ v < doorsRelaxedParallel.layout.size, (doorsClash.value? v).isSome = true := by
    decide +kernel
  have hselection :
      doorsClash.Models (selectionClauses doorsRelaxedParallel.layout .parallel) := by
    decide +kernel
  obtain ⟨_, _, hclash⟩ := models_interferenceClauses_iff_not_interferes he htotal hselection
  obtain ⟨_, _, hcalm⟩ := models_interferenceClauses_iff_not_interferes he
    (m := doorsParallelModel) (by decide +kernel) (by decide +kernel)
  refine ⟨he, htotal, hselection, ?_, hcalm.mp (by decide +kernel)⟩
  by_contra hnone
  exact absurd (hclash.mpr fun atom hatom h ↦ hnone ⟨atom, hatom, h⟩) (by decide +kernel)

end LiftedPlanning.Encoding
