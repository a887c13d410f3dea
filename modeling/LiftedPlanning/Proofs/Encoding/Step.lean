import LiftedPlanning.Proofs.Encoding.Frame
import LiftedPlanning.Proofs.Encoding.Selection
import LiftedPlanning.Proofs.Grounding.Table
import LiftedPlanning.Proofs.Plan.Execution

/-!
# What the clauses of a step say

The clauses are lifted, but what they say can be put in terms of ground conditions: of the operators
that run in a block, of the atoms in their preconditions, and of the atoms that their effects change
in the next block. Every assignment that satisfies the clauses is of that kind. An assignment of
that kind satisfies the clauses if it decides the operators and the constants; the atoms may be
open.
-/

namespace LiftedPlanning

open Cnf (Assignment Clause Literal)
open Cnf.Assignment

/-- The variables of operators and constants have values. -/
structure Layout.Decided (l : Layout) (m : Assignment) : Prop where
  active : ∀ op, op.index < l.operatorCount → m.Decides (l.active op)
  selected : ∀ op, op.index < l.operatorCount → ∀ position, ∀ choice ∈ l.choices op position,
    m.Decides choice.2

namespace Encoding

/-! ## Readings -/

/-- What the universal clauses say of a block. -/
structure IsBlock (p : Problem) (g : Grounding) (semantics : StepSemantics) (l : Layout)
    (m : Assignment) : Prop where
  runs : l.ActiveRun m
  selected : ∀ op, op.index < l.operatorCount → ∀ position, ∀ choice ∈ l.choices op position,
    m.satisfies choice.2 = true → m.satisfies (l.active op) = true
  exclusive : semantics = .sequential → ∀ op op', op.index < l.operatorCount →
    op'.index < l.operatorCount → m.satisfies (l.active op) = true →
    m.satisfies (l.active op') = true → op = op'
  known : ∀ op args role atom negated, l.Runs m op args →
    p.HasCondition op args role atom negated → ∃ id, g.atomId? atom = some id
  precondition : ∀ op args atom negated id, l.Runs m op args →
    p.HasCondition op args .precondition atom negated → g.atomId? atom = some id →
    m.satisfies (l.signed id negated) = true
  independent : semantics = .parallel → ∀ op args op' args' atom negated, l.Runs m op args →
    l.Runs m op' args' → op ≠ op' → p.HasCondition op args .effect atom negated →
    ¬p.HasCondition op' args' .precondition atom (!negated)

/-- What the transition clauses say of a block and the next one. -/
structure IsTransition (p : Problem) (g : Grounding) (l : Layout) (m m' : Assignment) : Prop where
  effect : ∀ op args atom negated id, l.Runs m op args →
    p.HasCondition op args .effect atom negated → g.atomId? atom = some id →
    m'.satisfies (l.signed id negated) = true
  frame : ∀ atom negated id, g.atomId? atom = some id →
    m.satisfies (l.signed id negated) = true ∨ m'.satisfies (l.signed id (!negated)) = true ∨
      ∃ op args, l.Runs m op args ∧ p.HasCondition op args .effect atom negated

/-- Of two operators that run, one gives a sign to the atom, and the other one needs the opposite
sign. -/
def Interferes (p : Problem) (l : Layout) (m : Assignment) (atom : GroundAtom) : Prop :=
  ∃ op args op' args' negated, l.Runs m op args ∧ l.Runs m op' args' ∧ op ≠ op' ∧
    p.HasCondition op args .effect atom negated ∧
    p.HasCondition op' args' .precondition atom (!negated)

/-! ## Conditions of running operators -/

variable {p : Problem} {g : Grounding} {mode : EligibilityMode} {m : Assignment}
  {os : List Occurrence}

/-- The occurrences are all those of the encoding, and it exists. -/
structure Covers (p : Problem) (g : Grounding) (l : Layout) (os : List Occurrence) : Prop where
  mem_iff : ∀ o, o ∈ os ↔ IsOccurrence p g l o
  simple : ∀ op schema, p.operator? op = some schema → l.eligibility.isSelectable op = true →
    schema.Simple

theorem mem_combinations_of_runs {l : Layout} {op : OperatorId} {args : List ConstantId}
    (h : l.Runs m op args) : args ∈ combinations (l.eligibility.setsOf op) :=
  Eligibility.mem_combinations_setsOf_iff.mpr
    ⟨h.length, fun position c hc ↦ (h.selects position c hc).mem_eligible⟩

section Bridge

variable (hos : Covers p g (layoutOf p g mode) os)

include hos

theorem Covers.exists_fires {op : OperatorId} {args : List ConstantId} {role : Role}
    {atom : GroundAtom} {negated : Bool} (hruns : (layoutOf p g mode).Runs m op args)
    (hc : p.HasCondition op args role atom negated) :
    ∃ o ∈ os, o.Fires m ∧ o.rule.operator = op ∧ o.rule.role = role ∧
      o.rule.condition.negated = negated ∧ o.atom = g.atomId? atom := by
  obtain ⟨schema, hop, c, hcond, hground, rfl⟩ := hc
  have hsel := Eligibility.isSelectable_of_mem (mem_combinations_of_runs hruns)
  have hrule : IsRule p (layoutOf p g mode).eligibility (ruleOf op schema role c) :=
    ⟨hop, hsel, hcond, (hos.simple op schema hop hsel role).2 c hcond, rfl⟩
  obtain ⟨o, a, ho, hr, hf, ha, hatom⟩ :=
    Encoding.exists_fires (g := g) hrule (arity_layoutOf hop) hruns
  obtain rfl : a = atom := Option.some.inj (ha.symm.trans hground)
  exact ⟨o, (hos.mem_iff o).mpr ho, hf, by rw [hr]; rfl, by rw [hr]; rfl, by rw [hr]; rfl, hatom⟩

theorem Covers.exists_hasCondition {o : Occurrence} (ho : o ∈ os) (hf : o.Fires m)
    (hruns : (layoutOf p g mode).ActiveRun m) :
    ∃ args atom, (layoutOf p g mode).Runs m o.rule.operator args ∧
      p.HasCondition o.rule.operator args o.rule.role atom o.rule.condition.negated ∧
        o.atom = g.atomId? atom := by
  have ho := (hos.mem_iff o).mp ho
  have hdecl := ho.rule.declared
  obtain ⟨args, hargs⟩ := hruns _ (index_lt_operatorCount hdecl) (ho.active_of_fires hf)
  obtain ⟨a, ha, hatom⟩ := ho.atom_of_fires hf hargs
  exact ⟨args, a, hargs, ⟨_, hdecl, _, ho.rule.condition, ha, rfl⟩, hatom⟩

end Bridge

/-! ## Interference clauses -/

theorem operator_binding {l : Layout} {o : Occurrence} (ho : IsOccurrence p g l o) :
    o.supporter.binding.operator = o.rule.operator := by
  obtain ⟨hr, choice, _, hok⟩ := ho
  obtain ⟨_, _, he⟩ := occurrence_eq_ok_iff.mp hok
  rw [he, Binding.ofMapping, hr.mapping]

section Interference

variable (hos : Covers p g (layoutOf p g mode) os)

include hos

theorem Covers.decides_conjunction (hd : (layoutOf p g mode).Decided m) {o : Occurrence}
    (ho : o ∈ os) :
    ∀ literal ∈ o.supporter.conjunction, m.Decides literal := by
  intro literal hl
  have ho := (hos.mem_iff o).mp ho
  have hop : o.rule.operator.index < (layoutOf p g mode).operatorCount :=
    index_lt_operatorCount ho.rule.declared
  rcases ho.mem_conjunction hl with rfl | ⟨position, choice, hc, rfl⟩
  · exact hd.active _ hop
  · exact hd.selected _ hop position choice hc

/-- Where the interference clauses are satisfied, what runs does not interfere over a known atom. -/
theorem Covers.not_interferes {atom : GroundAtom} {id : AtomId} (hid : g.atomId? atom = some id)
    (h : m.Models (interferenceClauses (layoutOf p g mode) (supportOf os))) :
    ¬Interferes p (layoutOf p g mode) m atom := by
  rintro ⟨op, args, op', args', negated, hr, hr', hne, hc, hc'⟩
  obtain ⟨o, ho, hf, hop, hrole, hneg, hatom⟩ := hos.exists_fires hr hc
  obtain ⟨o', ho', hf', hop', hrole', hneg', hatom'⟩ := hos.exists_fires hr' hc'
  have hdiffer : o'.supporter.binding.operator ≠ o.supporter.binding.operator := by
    rw [operator_binding ((hos.mem_iff o).mp ho), operator_binding ((hos.mem_iff o').mp ho'), hop,
      hop']
    exact hne.symm
  have hexcl := models_interferenceClauses_iff.mp h id (Grounding.index_lt_of_atomId? hid) o ho o'
    ho' (hatom.trans hid) (hatom'.trans hid) hrole hrole' (by rw [hneg, hneg']) hdiffer
  refine not_satisfiesClause_negate (fun s hs ↦ ?_) hexcl
  exact (List.mem_append.mp hs).elim (hf s) (hf' s)

theorem Covers.models_interferenceClauses (hd : (layoutOf p g mode).Decided m)
    (hruns : (layoutOf p g mode).ActiveRun m)
    (h : ∀ atom id, g.atomId? atom = some id → ¬Interferes p (layoutOf p g mode) m atom) :
    m.Models (interferenceClauses (layoutOf p g mode) (supportOf os)) := by
  refine models_interferenceClauses_iff.mpr ?_
  intro id _ o ho o' ho' hid hid' hrole hrole' hneg hne
  rw [operator_binding ((hos.mem_iff o).mp ho), operator_binding ((hos.mem_iff o').mp ho')] at hne
  refine (satisfiesClause_negate_iff ?_).mpr fun hall ↦ ?_
  · exact fun s hs ↦ (List.mem_append.mp hs).elim (hos.decides_conjunction hd ho s)
      (hos.decides_conjunction hd ho' s)
  · obtain ⟨hf, hf'⟩ := List.forall_mem_append.mp hall
    obtain ⟨args, atom, hr, hc, hatom⟩ := hos.exists_hasCondition ho hf hruns
    obtain ⟨args', atom', hr', hc', hatom'⟩ := hos.exists_hasCondition ho' hf' hruns
    obtain rfl : atom = atom' :=
      Grounding.atomId?_inj (hatom.symm.trans hid) (hatom'.symm.trans hid')
    rw [hrole] at hc
    rw [hrole', hneg] at hc'
    exact h atom id (hatom.symm.trans hid) ⟨_, args, _, args', _, hr, hr', hne.symm, hc, hc'⟩

end Interference

/-! ## Universal clauses -/

theorem forall_universalClause?_iff {l : Layout} {o : Occurrence} :
    (∀ c, o.universalClause? l = some c → m.satisfiesClause c = true) ↔
      (∀ id, o.atom = some id → o.rule.role = .precondition →
        m.satisfiesClause (o.implies (l.signed id o.rule.condition.negated)) = true) ∧
      (o.atom = none → m.satisfiesClause o.forbids = true) := by
  cases hatom : o.atom with
  | none => cases hrole : o.rule.role <;> simp [Occurrence.universalClause?,
      Occurrence.preconditionClause?, Occurrence.forbiddenClause?, hatom, hrole]
  | some id => cases hrole : o.rule.role <;> simp [Occurrence.universalClause?,
      Occurrence.preconditionClause?, Occurrence.forbiddenClause?, hatom, hrole, Occurrence.literal,
      Layout.signed]

def universalClauses (l : Layout) (semantics : StepSemantics) (os : List Occurrence) :
    List Clause :=
  selectionClauses l semantics ++ os.filterMap (·.universalClause? l) ++
    match semantics with
    | .sequential => []
    | .parallel => interferenceClauses l (supportOf os)

theorem models_universalClauses_iff {l : Layout} {semantics : StepSemantics} :
    m.Models (universalClauses l semantics os) ↔ m.Models (selectionClauses l semantics) ∧
      (∀ o ∈ os, ∀ c, o.universalClause? l = some c → m.satisfiesClause c = true) ∧
      (semantics = .parallel → m.Models (interferenceClauses l (supportOf os))) := by
  cases semantics <;>
    simp [universalClauses, Models.append_iff, Models.filterMap_iff]

section Universal

variable {semantics : StepSemantics} (hos : Covers p g (layoutOf p g mode) os)

include hos

/-- **Reading the universal clauses.** -/
theorem isBlock_of_models (h : m.Models (universalClauses (layoutOf p g mode) semantics os)) :
    IsBlock p g semantics (layoutOf p g mode) m := by
  obtain ⟨hsel, huniv, hinter⟩ := models_universalClauses_iff.mp h
  -- an atom outside the universe would be forbidden
  have hknown : ∀ op args role atom negated, (layoutOf p g mode).Runs m op args →
      p.HasCondition op args role atom negated → ∃ id, g.atomId? atom = some id := by
    intro op args role atom negated hr hc
    obtain ⟨o, ho, hf, _, _, _, hatom⟩ := hos.exists_fires hr hc
    cases hid : g.atomId? atom with
    | some id => exact ⟨id, rfl⟩
    | none =>
      have hforbid := (forall_universalClause?_iff.mp (huniv o ho)).2 (hatom.trans hid)
      exact absurd hforbid hf.not_forbidden
  refine ⟨activeRun_of_models hsel, ?_, ?_, hknown, ?_, ?_⟩
  · exact fun op hop position choice ↦ active_of_models hsel hop
  · rintro rfl op op' hop hop'
    exact eq_of_models_sequential hsel hop hop'
  -- what fires implies its atom
  · intro op args atom negated id hr hc hid
    obtain ⟨o, ho, hf, _, hrole, hneg, hatom⟩ := hos.exists_fires hr hc
    have hpre := (forall_universalClause?_iff.mp (huniv o ho)).1 id (hatom.trans hid) hrole
    rw [hneg] at hpre
    exact hf.satisfies_of_implies hpre
  · intro hpar op args op' args' atom negated hr hr' hne hc hc'
    obtain ⟨id, hid⟩ := hknown _ _ _ atom _ hr hc
    exact hos.not_interferes hid (hinter hpar)
      ⟨op, args, op', args', negated, hr, hr', hne, hc, hc'⟩

omit hos in
theorem models_selectionClauses_of_isBlock (hd : (layoutOf p g mode).Decided m)
    (h : IsBlock p g semantics (layoutOf p g mode) m) :
    m.Models (selectionClauses (layoutOf p g mode) semantics) := by
  refine models_selectionClauses_iff.mpr ⟨fun op hop ↦ ?_, fun hseq ↦ ?_⟩
  · rw [Layout.mem_operators_iff] at hop
    refine models_operatorClauses_iff.mpr fun position hlt ↦ ?_
    refine models_positionClauses_of_decides (hd.active op hop) ?_ ?_
    · rw [List.forall_mem_map]
      exact hd.selected op hop position
    · rw [List.filter_map, List.length_map]
      split
      · rename_i ha
        obtain ⟨args, hr⟩ := h.runs op hop ha
        obtain ⟨c, _, literal, hsel⟩ := hr.exists_argument hlt
        exact congrArg List.length hsel
      · rename_i ha
        rw [List.length_eq_zero_iff, List.filter_eq_nil_iff]
        exact fun choice hc hs ↦ ha (h.selected op hop position choice hc hs)
  · refine models_exclusions_iff.mpr
      (List.pairwise_map.mpr (List.Pairwise.imp_of_mem ?_ (Handle.nodup_first _)))
    intro op op' hop hop' hne
    rw [Layout.mem_operators_iff] at hop hop'
    rw [satisfiesClause_cons, satisfiesClause_singleton, (hd.active op hop).satisfies_negate_iff,
      (hd.active op' hop').satisfies_negate_iff, ← not_and_or]
    exact fun ⟨ha, ha'⟩ ↦ hne (h.exclusive hseq op op' hop hop' ha ha')

/-- **Meeting the universal clauses.** A decided block of which the readings hold satisfies them. -/
theorem models_of_isBlock (hd : (layoutOf p g mode).Decided m)
    (h : IsBlock p g semantics (layoutOf p g mode) m) :
    m.Models (universalClauses (layoutOf p g mode) semantics os) := by
  refine models_universalClauses_iff.mpr
    ⟨models_selectionClauses_of_isBlock hd h, fun o ho ↦ ?_, fun hpar ↦ ?_⟩
  · have hconj := hos.decides_conjunction hd ho
    have hocc := (hos.mem_iff o).mp ho
    refine forall_universalClause?_iff.mpr ⟨fun id hid hrole ↦ ?_, fun hnone ↦ ?_⟩
    · refine (satisfiesClause_implies_iff hconj).mpr fun hf ↦ ?_
      obtain ⟨args, atom, hr, hc, hatom⟩ := hos.exists_hasCondition ho hf h.runs
      rw [hrole] at hc
      exact h.precondition _ args atom _ id hr hc (hatom.symm.trans hid)
    · refine hocc.satisfiesClause_forbids hconj
        (h.selected _ (index_lt_operatorCount hocc.rule.declared)) fun hf ↦ ?_
      obtain ⟨args, atom, hr, hc, hatom⟩ := hos.exists_hasCondition ho hf h.runs
      obtain ⟨id, hid⟩ := h.known _ args _ atom _ hr hc
      rw [← hatom, hnone] at hid
      cases hid
  · refine hos.models_interferenceClauses hd h.runs ?_
    rintro atom id _ ⟨op, args, op', args', negated, hr, hr', hne, hc, hc'⟩
    exact h.independent hpar op args op' args' atom negated hr hr' hne hc hc'

end Universal

/-! ## Transition clauses -/

def transitionClauses (l : Layout) (os : List Occurrence) : List Clause :=
  os.filterMap (·.effectClause? l) ++ frameClauses l (supportOf os)

theorem forall_effectClause?_iff {l : Layout} {o : Occurrence} :
    (∀ c, o.effectClause? l = some c → m.satisfiesClause c = true) ↔
      ∀ id, o.atom = some id → o.rule.role = .effect →
        m.satisfiesClause (o.implies ((l.signed id o.rule.condition.negated).shift l.size)) =
          true := by
  cases hatom : o.atom with
  | none => cases hrole : o.rule.role <;> simp [Occurrence.effectClause?, hatom, hrole]
  | some id => cases hrole : o.rule.role <;> simp [Occurrence.effectClause?, hatom, hrole,
      Occurrence.literal, Layout.signed]

section Transition

variable (hos : Covers p g (layoutOf p g mode) os)

include hos

/-- **Reading the transition clauses.** -/
theorem isTransition_of_models (hruns : (layoutOf p g mode).ActiveRun m)
    (h : m.Models (transitionClauses (layoutOf p g mode) os)) :
    IsTransition p g (layoutOf p g mode) m (m.after (layoutOf p g mode).size) := by
  obtain ⟨heff, hframe⟩ := Models.append_iff.mp h
  rw [Models.filterMap_iff] at heff
  constructor
  · intro op args atom negated id hr hc hid
    obtain ⟨o, ho, hf, _, hrole, hneg, hatom⟩ := hos.exists_fires hr hc
    have himp := forall_effectClause?_iff.mp (heff o ho) id (hatom.trans hid) hrole
    rw [hneg] at himp
    rw [satisfies_after]
    exact hf.satisfies_of_implies himp
  · intro atom negated id hid
    have hlt : id.index < (layoutOf p g mode).atomCount := Grounding.index_lt_of_atomId? hid
    refine (models_frameClauses_iff.mp hframe id hlt negated).imp_right (Or.imp_right ?_)
    rintro ⟨o, ho, hoid, hneg, hrole, hf⟩
    obtain ⟨args, atom', hr, hc, hatom⟩ := hos.exists_hasCondition ho hf hruns
    obtain rfl : atom' = atom := Grounding.atomId?_inj (hatom.symm.trans hoid) hid
    rw [hrole, hneg] at hc
    exact ⟨_, args, hr, hc⟩

/-- **Meeting the transition clauses.** -/
theorem models_of_isTransition (hg : g.atomTable.Distinct)
    (hd : (layoutOf p g mode).Decided m) (hruns : (layoutOf p g mode).ActiveRun m)
    (h : IsTransition p g (layoutOf p g mode) m (m.after (layoutOf p g mode).size)) :
    m.Models (transitionClauses (layoutOf p g mode) os) := by
  refine Models.append_iff.mpr ⟨Models.filterMap_iff.mpr fun o ho ↦ ?_,
    models_frameClauses_iff.mpr fun id hlt negated ↦ ?_⟩
  · refine forall_effectClause?_iff.mpr fun id hid hrole ↦ ?_
    refine (satisfiesClause_implies_iff (hos.decides_conjunction hd ho)).mpr fun hf ↦ ?_
    obtain ⟨args, atom, hr, hc, hatom⟩ := hos.exists_hasCondition ho hf hruns
    rw [hrole] at hc
    rw [← satisfies_after]
    exact h.effect _ args atom _ id hr hc (hatom.symm.trans hid)
  · obtain ⟨atom, hid⟩ : ∃ atom, g.atomId? atom = some id := Grounding.exists_atomId?_eq hg hlt
    refine (h.frame atom negated id hid).imp_right (Or.imp_right ?_)
    rintro ⟨op, args, hr, hc⟩
    obtain ⟨o, ho, hf, _, hrole, hneg, hatom⟩ := hos.exists_fires hr hc
    exact ⟨o, ho, hatom.trans hid, hneg, hrole, hf⟩

end Transition

end Encoding

end LiftedPlanning
