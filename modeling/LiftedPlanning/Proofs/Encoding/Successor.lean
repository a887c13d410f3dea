import LiftedPlanning.Proofs.Encoding.Reachability
import LiftedPlanning.Proofs.Valuation

/-!
# Successors of blocks

The operators that are active in a block, with the constants selected for them, are actions to be
executed at once. Their effects determine the atoms of the next block: what is added is true there,
what is deleted is false, and everything else is as before. For a total block, the transition
clauses say exactly this. Where the actions add and delete the same atom, there is no next block.
-/

namespace LiftedPlanning

open Cnf (Assignment)
open Cnf.Assignment

theorem Layout.decided_of_isSome {l : Layout} {m : Assignment}
    (h : ∀ v < l.size, (m.value? v).isSome = true) : l.Decided m where
  active op hop := decides_of_isSome (h _ (var_lt_size (fact_active hop)))
  selected op hop position choice hc := by
    obtain ⟨i, hi, he⟩ := mem_choices_iff.mp hc
    rw [he]
    exact decides_of_isSome (h _ (var_lt_size (fact_selected hop hi)))

namespace Encoding

/-! ## Successors -/

/-- What runs in a block gives a sign to an atom. -/
def Gives (p : Problem) (l : Layout) (m : Assignment) (atom : GroundAtom) (negated : Bool) : Prop :=
  ∃ op args, l.Runs m op args ∧ p.HasCondition op args .effect atom negated

/-- The atoms of the second block follow from what runs in the first one. -/
structure IsSuccessor (p : Problem) (g : Grounding) (l : Layout) (m m' : Assignment) : Prop where
  added : ∀ atom id, g.atomId? atom = some id → Gives p l m atom false →
    m'.value? (l.holds id).var = some true
  deleted : ∀ atom id, g.atomId? atom = some id → Gives p l m atom true →
    m'.value? (l.holds id).var = some false
  kept : ∀ atom id, g.atomId? atom = some id → ¬Gives p l m atom false → ¬Gives p l m atom true →
    m'.value? (l.holds id).var = m.value? (l.holds id).var

variable {p : Problem} {g : Grounding} {strategy : Strategy} {e : Encoding} {m m' : Assignment}
  {l : Layout} {k : Nat}

theorem IsSuccessor.value?_of_gives (h : IsSuccessor p g l m m') {atom : GroundAtom} {id : AtomId}
    {negated : Bool} (hid : g.atomId? atom = some id) (hgives : Gives p l m atom negated) :
    m'.value? (l.holds id).var = some (!negated) := by
  cases negated with
  | false => exact h.added atom id hid hgives
  | true => exact h.deleted atom id hid hgives

/-- No block follows if an atom of the universe is both added and deleted. -/
theorem not_isSuccessor {atom : GroundAtom} {id : AtomId} (hid : g.atomId? atom = some id)
    (hadd : Gives p l m atom false) (hdel : Gives p l m atom true) : ¬IsSuccessor p g l m m' := by
  intro h
  have htrue := h.added atom id hid hadd
  rw [h.deleted atom id hid hdel] at htrue
  cases htrue

/-- If the atoms of a block have values, the frame says that what is not changed keeps its value. -/
theorem isTransition_iff_isSuccessor
    (hm : ∀ atom id, g.atomId? atom = some id → (m.value? (l.holds id).var).isSome = true) :
    IsTransition p g l m m' ↔ IsSuccessor p g l m m' := by
  constructor
  · intro h
    have hgives : ∀ atom id negated, g.atomId? atom = some id → Gives p l m atom negated →
        m'.value? (l.holds id).var = some (!negated) := by
      rintro atom id negated hid ⟨op, args, hr, hc⟩
      exact Layout.satisfies_signed_iff.mp (h.effect op args atom negated id hr hc hid)
    refine ⟨fun atom id ↦ hgives atom id false, fun atom id ↦ hgives atom id true, ?_⟩
    intro atom id hid hadd hdel
    obtain ⟨b, hb⟩ := Option.isSome_iff_exists.mp (hm atom id hid)
    -- the frame is used for the sign that the atom does not have
    have hframe := h.frame atom b id hid
    rw [Layout.satisfies_signed_iff, Layout.satisfies_signed_iff, hb, Bool.not_not] at hframe
    rcases hframe with hnow | hnext | hchange
    · cases b <;> cases hnow
    · rw [hnext, hb]
    · cases b with
      | false => exact absurd hchange hadd
      | true => exact absurd hchange hdel
  · intro h
    refine ⟨?_, ?_⟩
    · intro op args atom negated id hr hc hid
      exact Layout.satisfies_signed_iff.mpr (h.value?_of_gives hid ⟨op, args, hr, hc⟩)
    · intro atom negated id hid
      rw [Layout.satisfies_signed_iff, Layout.satisfies_signed_iff]
      by_cases hsame : Gives p l m atom negated
      · exact .inr (.inr hsame)
      by_cases hother : Gives p l m atom (!negated)
      · exact .inr (.inl (h.value?_of_gives hid hother))
      have hkept : m'.value? (l.holds id).var = m.value? (l.holds id).var := by
        cases negated with
        | false => exact h.kept atom id hid hsame hother
        | true => exact h.kept atom id hid hother hsame
      obtain ⟨b, hb⟩ := Option.isSome_iff_exists.mp (hm atom id hid)
      rw [hkept, hb, Bool.not_not]
      cases b <;> cases negated <;> simp

/-! ## Transition clauses -/

/-- **The transition clauses are the successor relation.** Let a block be total and satisfy the
universal clauses. Its active operators run with one list of arguments each, and the transition
clauses to the next block are satisfied exactly if that block is a successor. They are not if what
runs adds and deletes the same atom. -/
theorem models_transitionAt_iff (hg : g.IsBuilt) (he : ofProblem p g strategy = .ok e)
    (htotal : ∀ v < e.layout.size, ((e.formula.block m k).value? v).isSome = true)
    (huniv : m.Models (e.formula.universalAt k)) :
    (∀ op ∈ e.layout.operators,
        (e.formula.block m k).satisfies (e.layout.active op) = true →
          ∃! args, e.layout.Runs (e.formula.block m k) op args) ∧
      (m.Models (e.formula.transitionAt k) ↔
        IsSuccessor p g e.layout (e.formula.block m k) (e.formula.block m (k + 1))) ∧
      ∀ atom, Gives p e.layout (e.formula.block m k) atom false →
        Gives p e.layout (e.formula.block m k) atom true →
        ¬m.Models (e.formula.transitionAt k) := by
  obtain ⟨os, hos⟩ := exists_isEncoding he
  have hdecided := Layout.decided_of_isSome htotal
  have hatoms : ∀ atom id, g.atomId? atom = some id →
      ((e.formula.block m k).value? (e.layout.holds id).var).isSome = true := by
    intro atom id hid
    have hlt : id.index < e.layout.atomCount := by
      rw [hos.layout]
      exact Grounding.index_lt_of_atomId? hid
    exact htotal _ (Layout.var_lt_size (Layout.fact_holds hlt))
  rw [ReachabilityFormula.universalAt, ReachabilityFormula.models_moved_iff] at huniv
  have hblock := hos.isBlock huniv
  have hiff : m.Models (e.formula.transitionAt k) ↔
      IsSuccessor p g e.layout (e.formula.block m k) (e.formula.block m (k + 1)) := by
    rw [ReachabilityFormula.transitionAt, ReachabilityFormula.models_moved_iff,
      ← isTransition_iff_isSuccessor hatoms, ← hos.block_succ]
    exact ⟨hos.isTransition hblock.runs,
      hos.models_transition hg.distinctAtoms hdecided hblock.runs⟩
  refine ⟨?_, hiff, ?_⟩
  · intro op hop hactive
    obtain ⟨args, hr⟩ := hblock.runs op (Layout.mem_operators_iff.mp hop) hactive
    exact ⟨args, hr, fun args' hr' ↦ hr'.unique hr⟩
  · rintro atom ⟨op, args, hr, hc⟩ hdel
    obtain ⟨id, hid⟩ := hblock.known op args _ atom _ hr hc
    rw [hiff]
    exact not_isSuccessor hid ⟨op, args, hr, hc⟩ hdel

/-- Ringing at the second door. -/
theorem models_transitionAt_doors :
    doorsRelaxedModel.Models (doorsRelaxedEncoding.formula.transitionAt 0) ∧
      IsSuccessor doors doorsRelaxed.grounding doorsRelaxedEncoding.layout doorsRelaxedModel
        (doorsRelaxedEncoding.formula.block doorsRelaxedModel 1) := by
  have he : ofProblem doors doorsRelaxed.grounding ⟨.sequential, .grounded⟩ =
      .ok doorsRelaxedEncoding := Fallible.eq_ok_get _
  have hg := RelaxedGrounding.isBuilt_of_ofProblem (Fallible.eq_ok_get _ :
    RelaxedGrounding.ofProblem doors = .ok doorsRelaxed)
  obtain ⟨_, hiff, _⟩ := models_transitionAt_iff (m := doorsRelaxedModel) (k := 0) hg he
    (by decide +kernel) (by decide +kernel)
  rw [ReachabilityFormula.block_zero] at hiff
  have htrans : doorsRelaxedModel.Models (doorsRelaxedEncoding.formula.transitionAt 0) := by
    decide +kernel
  exact ⟨htrans, hiff.mp htrans⟩

end Encoding

end LiftedPlanning
