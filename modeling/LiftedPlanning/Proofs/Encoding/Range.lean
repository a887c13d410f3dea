import Mathlib.Order.Interval.Set.Defs
import LiftedPlanning.Proofs.Encoding.Blocks
import LiftedPlanning.Proofs.Valuation

/-!
# The variables of an encoding

The clauses about a single step mention the variables of one block, and the transition clauses those
of two. This is read off the parts that they are put together from: the literals of operators and of
eligible constants, and the literals of the atoms of the universe, which are moved on by a block
where they are about the next step.
-/

namespace LiftedPlanning

open Cnf (Clause Literal)

namespace Cnf

/-- All the variables of some clauses come before variable `n`. -/
def Within (n : Nat) (cs : List Clause) : Prop :=
  ∀ c ∈ cs, ∀ literal ∈ c, literal.var < n

namespace Within

variable {n n' : Nat} {cs ds : List Clause}

theorem mono (h : Within n cs) (hn : n ≤ n') : Within n' cs :=
  fun c hc literal hl ↦ Nat.lt_of_lt_of_le (h c hc literal hl) hn

theorem append_iff : Within n (cs ++ ds) ↔ Within n cs ∧ Within n ds :=
  List.forall_mem_append

end Within

/-- All the variable numbers of some clauses are in a set. -/
def NumbersIn (s : Set Nat) (cs : List Clause) : Prop :=
  ∀ c ∈ cs, ∀ literal ∈ c, literal.number ∈ s

theorem Within.numbersIn {n : Nat} {cs : List Clause} (h : Within n cs) :
    NumbersIn (Set.Icc 1 n) cs :=
  fun c hc literal hl ↦ ⟨Nat.succ_pos _, h c hc literal hl⟩

end Cnf

open Cnf (NumbersIn Within)

theorem ReachabilityFormula.numbersIn_moved {f : ReachabilityFormula} {cs : List Clause} {n : Nat}
    (h : Within n cs) (k : Nat) :
    NumbersIn (Set.Ioc (k * f.stepSize) (k * f.stepSize + n)) (f.moved k cs) := by
  refine List.forall_mem_map.mpr fun c hc ↦ List.forall_mem_map.mpr fun literal hl ↦ ?_
  have hvar := h c hc literal hl
  change literal.var + k * f.stepSize + 1 ∈ Set.Ioc _ _
  rw [Set.mem_Ioc]
  omega

/-! ## Literals of a block -/

namespace Layout

variable {l : Layout} {op : OperatorId}

theorem var_active_lt (h : op.index < l.operatorCount) : (l.active op).var < l.size :=
  var_lt_size (fact_active h)

theorem var_choice_lt (h : op.index < l.operatorCount) {position : Nat}
    {choice : ConstantId × Literal} (hc : choice ∈ l.choices op position) :
    choice.2.var < l.size := by
  obtain ⟨i, hi, he⟩ := mem_choices_iff.mp hc
  rw [he]
  exact var_lt_size (fact_selected h hi)

theorem var_signed_lt {id : AtomId} (h : id.index < l.atomCount) (negated : Bool) :
    (l.signed id negated).var < l.size := by
  have hholds : (l.holds id).var < l.size := var_lt_size (fact_holds h)
  cases negated <;> exact hholds

end Layout

namespace Encoding

variable {p : Problem} {g : Grounding} {strategy : Strategy} {e : Encoding} {os : List Occurrence}
  {l : Layout} {n : Nat}

/-! ## Selection clauses -/

theorem within_exclusions {literals : List Literal} (h : ∀ s ∈ literals, s.var < n) :
    Within n (exclusions literals) := by
  induction literals with
  | nil => exact List.forall_mem_nil _
  | cons s rest ih =>
    obtain ⟨hs, hrest⟩ := List.forall_mem_cons.mp h
    refine Within.append_iff.mpr ⟨?_, ih hrest⟩
    rw [Within, List.forall_mem_map]
    intro other hother
    rw [List.forall_mem_cons, List.forall_mem_singleton]
    exact ⟨hs, hrest other hother⟩

theorem within_choiceClauses {active : Literal} {selected : List Literal} (ha : active.var < n)
    (h : ∀ s ∈ selected, s.var < n) : Within n (choiceClauses active selected) := by
  induction selected with
  | nil => exact List.forall_mem_nil _
  | cons s rest ih =>
    obtain ⟨hs, hrest⟩ := List.forall_mem_cons.mp h
    refine Within.append_iff.mpr ⟨List.forall_mem_cons.mpr ⟨?_, ?_⟩, ih hrest⟩
    · rw [List.forall_mem_cons, List.forall_mem_singleton]
      exact ⟨hs, ha⟩
    · rw [List.forall_mem_map]
      intro other hother
      rw [List.forall_mem_cons, List.forall_mem_singleton]
      exact ⟨hs, hrest other hother⟩

theorem within_operatorClauses {op : OperatorId} (h : op.index < l.operatorCount) :
    Within l.size (operatorClauses l op) := by
  intro c hc
  obtain ⟨position, _, hc⟩ := List.mem_flatMap.mp hc
  have hactive : (l.active op).var < l.size := Layout.var_active_lt h
  have hselected : ∀ s ∈ (l.choices op position).map (·.2), s.var < l.size :=
    List.forall_mem_map.mpr fun choice hchoice ↦ Layout.var_choice_lt h hchoice
  rcases List.mem_cons.mp hc with rfl | hc
  · exact List.forall_mem_cons.mpr ⟨hactive, hselected⟩
  · exact within_choiceClauses hactive hselected c hc

theorem within_selectionClauses (semantics : StepSemantics) :
    Within l.size (selectionClauses l semantics) := by
  refine Within.append_iff.mpr ⟨fun c hc ↦ ?_, ?_⟩
  · obtain ⟨op, hop, hc⟩ := List.mem_flatMap.mp hc
    exact within_operatorClauses (Layout.mem_operators_iff.mp hop) c hc
  · cases semantics with
    | sequential =>
      refine within_exclusions (List.forall_mem_map.mpr fun op hop ↦ ?_)
      exact Layout.var_active_lt (Layout.mem_operators_iff.mp hop)
    | parallel => exact List.forall_mem_nil _

/-! ## Clauses of occurrences -/

/-- The conjunctions of occurrences consist of literals of a block, and their atoms are in it. -/
def Bounded (l : Layout) (os : List Occurrence) : Prop :=
  ∀ o ∈ os, (∀ s ∈ o.supporter.conjunction, s.var < l.size) ∧
    ∀ id, o.atom = some id → id.index < l.atomCount

theorem IsOccurrence.var_conjunction_lt {mode : EligibilityMode} {o : Occurrence}
    (ho : IsOccurrence p g (layoutOf p g mode) o) :
    ∀ s ∈ o.supporter.conjunction, s.var < (layoutOf p g mode).size := by
  have hop : o.rule.operator.index < (layoutOf p g mode).operatorCount :=
    index_lt_operatorCount ho.rule.declared
  intro s hs
  rcases ho.mem_conjunction hs with rfl | ⟨position, choice, hc, rfl⟩
  · exact Layout.var_active_lt hop
  · exact Layout.var_choice_lt hop hc

theorem Covers.bounded {mode : EligibilityMode} (hos : Covers p g (layoutOf p g mode) os) :
    Bounded (layoutOf p g mode) os := by
  intro o ho
  have ho := (hos.mem_iff o).mp ho
  refine ⟨ho.var_conjunction_lt, fun id hid ↦ ?_⟩
  obtain ⟨_, choice, _, hok⟩ := ho
  obtain ⟨a, _, he⟩ := occurrence_eq_ok_iff.mp hok
  rw [he] at hid
  exact Grounding.index_lt_of_atomId? hid

theorem var_lt_of_mem_implies {o : Occurrence} (ho : ∀ s ∈ o.supporter.conjunction, s.var < n)
    {conclusion : Literal} (hconclusion : conclusion.var < n) :
    ∀ s ∈ o.implies conclusion, s.var < n :=
  List.forall_mem_append.mpr
    ⟨List.forall_mem_map.mpr ho, List.forall_mem_singleton.mpr hconclusion⟩

theorem var_lt_of_mem_forbids {o : Occurrence} (ho : ∀ s ∈ o.supporter.conjunction, s.var < n) :
    ∀ s ∈ o.forbids, s.var < n := by
  rw [Occurrence.forbids]
  split
  · exact List.forall_mem_nil _
  · rename_i active h
    rw [h, List.forall_mem_singleton] at ho
    exact List.forall_mem_singleton.mpr ho
  · rename_i active selections _ h
    rw [h, List.forall_mem_cons] at ho
    exact List.forall_mem_map.mpr ho.2

theorem eq_of_universalClause? {o : Occurrence} {c : Clause} (h : o.universalClause? l = some c) :
    (∃ id, o.atom = some id ∧ c = o.implies (o.literal l id)) ∨ c = o.forbids := by
  cases hid : o.atom with
  | none =>
    rw [Occurrence.universalClause?, Occurrence.preconditionClause?, Occurrence.forbiddenClause?,
      hid] at h
    cases hr : o.rule.role <;> rw [hr] at h <;> exact .inr (Option.some.inj h).symm
  | some id =>
    rw [Occurrence.universalClause?, Occurrence.preconditionClause?, Occurrence.forbiddenClause?,
      hid] at h
    cases hr : o.rule.role with
    | precondition =>
      rw [hr] at h
      exact .inl ⟨id, rfl, (Option.some.inj h).symm⟩
    | effect =>
      rw [hr] at h
      cases h

theorem eq_of_effectClause? {o : Occurrence} {c : Clause} (h : o.effectClause? l = some c) :
    ∃ id, o.atom = some id ∧ c = o.implies ((o.literal l id).shift l.size) := by
  rw [Occurrence.effectClause?] at h
  split at h
  · rename_i id _ hid
    exact ⟨id, hid, (Option.some.inj h).symm⟩
  · cases h

theorem within_supporters (h : Bounded l os) {a : AtomId} {positive : Bool} {role : Role}
    {s : Supporter} (hs : s ∈ (supportOf os).supporters a positive role) :
    ∀ literal ∈ s.conjunction, literal.var < l.size := by
  rw [← Bool.not_not positive] at hs
  obtain ⟨o, ho, _, _, _, rfl⟩ := mem_supporters_iff.mp hs
  exact (h o ho).1

theorem within_interferenceClauses (h : Bounded l os) :
    Within l.size (interferenceClauses l (supportOf os)) := by
  intro c hc
  obtain ⟨positive, _, hc⟩ := List.mem_flatMap.mp hc
  obtain ⟨a, _, hc⟩ := List.mem_flatMap.mp hc
  obtain ⟨effect, heffect, hc⟩ := List.mem_flatMap.mp hc
  obtain ⟨need, hneed, rfl⟩ := List.mem_map.mp hc
  refine List.forall_mem_map.mpr (List.forall_mem_append.mpr ⟨?_, ?_⟩)
  · exact within_supporters h heffect
  · exact within_supporters h (List.mem_filter.mp hneed).1

theorem within_universalClauses (h : Bounded l os) (semantics : StepSemantics) :
    Within l.size (universalClauses l semantics os) := by
  refine Within.append_iff.mpr
    ⟨Within.append_iff.mpr ⟨within_selectionClauses semantics, fun c hc ↦ ?_⟩, ?_⟩
  · obtain ⟨o, ho, hc⟩ := List.mem_filterMap.mp hc
    obtain ⟨hconj, hatom⟩ := h o ho
    rcases eq_of_universalClause? hc with ⟨id, hid, rfl⟩ | rfl
    · exact var_lt_of_mem_implies hconj (Layout.var_signed_lt (hatom id hid) _)
    · exact var_lt_of_mem_forbids hconj
  · cases semantics with
    | sequential => exact List.forall_mem_nil _
    | parallel => exact within_interferenceClauses h

/-! ## Transition clauses -/

theorem within_clausesOfBranches {common : List Literal} {branches : List (List Literal)}
    (hcommon : ∀ s ∈ common, s.var < n) (hbranches : Within n branches) :
    Within n (clausesOfBranches common branches) := by
  rw [clausesOfBranches]
  split
  · exact List.forall_mem_nil _
  · refine List.forall_mem_map.mpr fun choice hchoice ↦ ?_
    refine List.forall_mem_append.mpr ⟨List.forall_mem_append.mpr ⟨hcommon, fun s hs ↦ ?_⟩,
      fun s hs ↦ ?_⟩
    · obtain ⟨b, hb, hs⟩ := List.mem_flatten.mp hs
      exact hbranches b (List.mem_filter.mp hb).1 s hs
    · obtain ⟨b, hb, hs⟩ := Fallible.exists_right (mem_combinations.mp hchoice) hs
      exact hbranches b (List.mem_filter.mp hb).1 s hs

theorem within_frameClauses (h : Bounded l os) :
    Within (2 * l.size) (frameClauses l (supportOf os)) := by
  intro c hc
  obtain ⟨a, ha, hc⟩ := List.mem_flatMap.mp hc
  obtain ⟨becomesTrue, _, hc⟩ := List.mem_flatMap.mp hc
  have hholds : (l.holds a).var < l.size :=
    Layout.var_signed_lt (Layout.mem_atoms_iff.mp ha) false
  have hnow : (l.holds a).var < 2 * l.size := by omega
  have hnext : (l.holds a).var + l.size < 2 * l.size := by omega
  refine within_clausesOfBranches ?_ ?_ c hc
  · cases becomesTrue <;> exact List.forall_mem_cons.mpr ⟨hnow, List.forall_mem_singleton.mpr hnext⟩
  · refine List.forall_mem_map.mpr fun s hs literal hl ↦ ?_
    have := within_supporters h hs literal hl
    omega

theorem within_transitionClauses (h : Bounded l os) :
    Within (2 * l.size) (transitionClauses l os) := by
  refine Within.append_iff.mpr ⟨fun c hc ↦ ?_, within_frameClauses h⟩
  obtain ⟨o, ho, hc⟩ := List.mem_filterMap.mp hc
  obtain ⟨hconj, hatom⟩ := h o ho
  obtain ⟨id, hid, rfl⟩ := eq_of_effectClause? hc
  have hliteral : (o.literal l id).var < l.size := Layout.var_signed_lt (hatom id hid) _
  refine var_lt_of_mem_implies (fun s hs ↦ ?_) ?_
  · have := hconj s hs
    omega
  · change (o.literal l id).var + l.size < 2 * l.size
    omega

/-! ## The initial state and the goal -/

/-- Each atom of the universe has one initial clause, in order: the literal that gives the atom the
sign that it has in the initial state. -/
theorem forall₂_initialClauses (hg : g.atomTable.Distinct) :
    List.Forall₂ (fun atom clause ↦ ∃ id, g.atomId? atom = some id ∧
      clause = [l.signed id (decide (atom ∉ p.init))]) g.atoms (initialClauses p g l) := by
  rw [initialClauses, List.forall₂_map_right_iff, List.forall₂_iff_get]
  refine ⟨(List.length_zipIdx).symm, fun i hi hi' ↦ ⟨⟨i⟩, ?_, ?_⟩⟩
  · exact Grounding.atomId?_of_getElem? hg (List.getElem?_eq_getElem hi)
  · simp only [List.get_eq_getElem, List.getElem_zipIdx, Nat.zero_add]
    by_cases ha : g.atoms[i] ∈ p.init <;> simp [ha, Layout.signed]

/-! ## Encodings -/

section IsEncoding

variable (he : IsEncoding p g strategy e os)

include he

theorem IsEncoding.bounded : Bounded e.layout os := by
  rw [he.layout]
  exact he.covers.bounded

theorem IsEncoding.var_signed_lt {atom : GroundAtom} {id : AtomId} (hid : g.atomId? atom = some id)
    (negated : Bool) : (e.layout.signed id negated).var < e.formula.stepSize := by
  rw [he.stepSize]
  refine Layout.var_signed_lt ?_ negated
  rw [he.layout]
  exact Grounding.index_lt_of_atomId? hid

theorem IsEncoding.within_initial (hg : g.atomTable.Distinct) :
    Within e.formula.stepSize e.formula.initial := by
  rw [he.initial]
  intro c hc
  obtain ⟨_, _, id, hid, rfl⟩ := Fallible.exists_left (forall₂_initialClauses hg) hc
  exact List.forall_mem_singleton.mpr (he.var_signed_lt hid _)

theorem IsEncoding.var_goal_lt : ∀ literal ∈ e.formula.goal, literal.var < e.formula.stepSize := by
  intro literal hl
  obtain ⟨c, _, hok⟩ := Fallible.exists_left he.goal hl
  obtain ⟨atom, id, _, hid, rfl⟩ := goalLiteral_eq_ok_iff.mp hok
  exact he.var_signed_lt hid _

theorem IsEncoding.within_universal : Within e.formula.stepSize e.formula.universal := by
  rw [he.stepSize, he.universal]
  exact within_universalClauses he.bounded _

theorem IsEncoding.within_transition : Within (2 * e.formula.stepSize) e.formula.transition := by
  rw [he.stepSize, he.transition]
  exact within_transitionClauses he.bounded

end IsEncoding

end Encoding

end LiftedPlanning
