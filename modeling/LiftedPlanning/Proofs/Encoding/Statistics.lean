import LiftedPlanning.Proofs.Encoding.Distribution
import LiftedPlanning.Proofs.Encoding.Ledger

/-!
# The sizes of an encoding

How large an encoding gets can be told from the problem, the eligible constants and the support
index. A condition has a clause for every choice of constants for the parameters that it mentions. A
direction of change of an atom has a clause for every choice of a literal from each of the effects
that bring it about: from those that mention parameters, as the others leave no choice.
-/

namespace LiftedPlanning

open Cnf (Clause Literal)

/-! ## Index entries -/

/-- The entries of an index, counted by role, sign and atom. -/
def Support.entryTotal {α : Type} (s : Support α) (atoms : List AtomId) : Nat :=
  ([(Role.precondition, true), (.precondition, false), (.effect, true), (.effect, false)].map
    fun (role, positive) ↦ (atoms.map fun a ↦ (s.supporters a positive role).length).sum).sum

theorem Support.entryTotal_eq {α : Type} {s : Support α} {n : Nat}
    (h : ∀ e ∈ s.entries, e.atom.index < n) : s.entryTotal (Handle.first n) = s.size := by
  have hgroup : ∀ role positive, ((Handle.first n).map fun a ↦
      (s.supporters a positive role).length).sum =
        (s.entries.filter fun e ↦ (e.role, e.positive) = (role, positive)).length := by
    intro role positive
    rw [← sum_length_filter SupportEntry.atom (Handle.nodup_first n) fun e he ↦
      Handle.mem_first_iff.mpr (h e (List.mem_filter.mp he).1)]
    refine congrArg List.sum (List.map_congr_left fun a _ ↦ ?_)
    rw [supporters, List.length_map, List.filter_filter]
    refine congrArg List.length (List.filter_congr fun e _ ↦ ?_)
    grind
  simp only [entryTotal, hgroup]
  refine sum_length_filter (fun e : SupportEntry α ↦ (e.role, e.positive)) (by decide) fun e _ ↦ ?_
  cases e.role <;> cases e.positive <;> decide

namespace Encoding

variable {p : Problem} {g : Grounding} {mode : EligibilityMode} {strategy : Strategy} {e : Encoding}
  {os : List Occurrence} {l : Layout}

/-! ## Choices for conditions -/

/-- The number of choices of eligible constants for the parameters that a condition mentions. -/
def choiceCount (e : Eligibility) (id : OperatorId) (op : Operator) (c : Condition) : Nat :=
  ((⟨id, Mapping.pairsOf op c⟩ : Mapping).slots.map fun slot ↦ (e.eligible id slot).length).prod

/-- The choices for all the flat conditions of the operators that can be selected. -/
def choiceTotal (p : Problem) (e : Eligibility) : Nat :=
  ((p.namedOperators.filter fun (id, _) ↦ e.isSelectable id).map fun (id, _, op) ↦
    ([Role.precondition, .effect].map fun role ↦
      ((op.formula role).flat.map (choiceCount e id op)).sum).sum).sum

theorem sum_map_flatMap {α β : Type} (f : α → List β) (w : β → Nat) (xs : List α) :
    ((xs.flatMap f).map w).sum = (xs.map fun x ↦ ((f x).map w).sum).sum := by
  rw [List.map_flatMap, List.flatMap_def, List.sum_flatten, List.map_map]
  rfl

theorem length_occurrences {r : Rule} (hr : IsRule p l.eligibility r)
    (h : r.occurrences p g l = .ok os) :
    os.length = choiceCount l.eligibility r.operator r.schema r.condition := by
  rw [← (Fallible.mapM_eq_ok_iff.mp h).length_eq, length_combinations, List.map_map, choiceCount,
    ← hr.mapping]
  refine congrArg List.prod (List.map_congr_left fun slot _ ↦ ?_)
  rw [Function.comp, Layout.choices, List.length_map, List.length_zipIdx]

theorem length_flatten_occurrences {rs : List Rule} {oss : List (List Occurrence)}
    (hrs : rules p l.eligibility = .ok rs) (hoss : rs.mapM (Rule.occurrences p g l) = .ok oss) :
    oss.flatten.length = choiceTotal p l.eligibility := by
  have hlengths : rs.map (fun r ↦ choiceCount l.eligibility r.operator r.schema r.condition) =
      oss.map List.length := by
    rw [← List.forall₂_eq_eq_eq, List.forall₂_map_left_iff, List.forall₂_map_right_iff]
    refine Fallible.forall₂_imp_left (fun r hr os hos ↦ ?_) (Fallible.mapM_eq_ok_iff.mp hoss)
    exact (length_occurrences ((mem_rules_iff hrs).mp hr) hos).symm
  obtain ⟨_, hrules⟩ := rules_eq_ok_iff.mp hrs
  calc oss.flatten.length
      = (rs.map fun r ↦ choiceCount l.eligibility r.operator r.schema r.condition).sum := by
        rw [List.length_flatten, hlengths]
    -- the rules are nested as operators, roles and conditions
    _ = choiceTotal p l.eligibility := by
        simp only [hrules, choiceTotal, rulesOf, sum_map_flatMap, List.map_map]
        rfl

/-! ## Choices for changes -/

/-- The number of choices of a literal from each of the effects that bring a change about and
mention parameters. -/
def changeCount (s : Support Supporter) (a : AtomId) (becomesTrue : Bool) : Nat :=
  (((s.supporters a becomesTrue .effect).filter fun supporter ↦
    1 ≤ supporter.binding.slots.length).map fun supporter ↦
      1 + supporter.binding.slots.length).prod

/-- The choices for both directions of change of all atoms. -/
def changeTotal (s : Support Supporter) (atoms : List AtomId) : Nat :=
  (atoms.map fun a ↦ ([true, false].map (changeCount s a)).sum).sum

theorem Covers.length_changeClauses (hos : Covers p g (layoutOf p g mode) os) (a : AtomId)
    (becomesTrue : Bool) :
    (changeClauses (layoutOf p g mode) (supportOf os) a becomesTrue).length =
      changeCount (supportOf os) a becomesTrue := by
  -- a conjunction has the literal of its operator, and one for every slot
  have hlength : ∀ s ∈ (supportOf os).supporters a becomesTrue .effect,
      s.conjunction.length = 1 + s.binding.slots.length := by
    intro s hs
    rw [hos.conjunction_of_mem_supporters hs, Layout.conjunctionOf, List.length_cons,
      List.length_map, Binding.slots, List.length_map, Nat.add_comm]
  rw [changeClauses, length_clausesOfBranches, List.filter_map, List.map_map, changeCount]
  · refine congrArg List.prod ?_
    have hfilter : ((supportOf os).supporters a becomesTrue .effect).filter
          ((2 ≤ ·.length) ∘ Supporter.conjunction) =
        ((supportOf os).supporters a becomesTrue .effect).filter fun supporter ↦
          1 ≤ supporter.binding.slots.length := by
      refine List.filter_congr fun s hs ↦ ?_
      rw [Function.comp, hlength s hs]
      grind
    rw [hfilter]
    exact List.map_congr_left fun s hs ↦ hlength s (List.mem_filter.mp hs).1
  · intro b hb
    obtain ⟨s, hs, rfl⟩ := List.mem_map.mp hb
    rw [← List.length_pos_iff, hlength s hs]
    omega

theorem Covers.length_frameClauses (hos : Covers p g (layoutOf p g mode) os) :
    (frameClauses (layoutOf p g mode) (supportOf os)).length =
      changeTotal (supportOf os) (layoutOf p g mode).atoms := by
  simp only [frameClauses, List.length_flatMap, hos.length_changeClauses, changeTotal]

/-! ## Statistics -/

theorem selectedCount_layoutOf : (layoutOf p g mode).selectedCount =
    ((eligibility p g mode).sets.flatten.map List.length).sum := by
  rw [Layout.selectedCount_eq, layoutOf, Layout.operatorCount_ofEligibility]
  exact Layout.Tables.selectionCount_length _

theorem counts_of_balanced {n : Nat} (h : e.ledger.Balanced n) :
    e.statistics.universal = e.formula.universal.length ∧
      e.statistics.transition = e.formula.transition.length ∧
      e.statistics.preconditions + e.statistics.effects + e.statistics.forbidden = n :=
  ⟨h.universal.symm, h.transition.symm, h.occurrences⟩

/-- The statistics of an encoding are the counts that were kept while the clauses were put out, and
they are right: the counts of the parts add up to the lengths of the lists, and each of the others
is what the problem, the eligible constants and the support index say. -/
structure IsCounted (p : Problem) (g : Grounding) (strategy : Strategy) (e : Encoding) : Prop where
  kept : Ledger.ofProblem p g strategy = .ok e.ledger
  universal : e.statistics.universal = e.formula.universal.length
  transition : e.statistics.transition = e.formula.transition.length
  selected : e.statistics.selected =
    ((eligibility p g strategy.eligibility).sets.flatten.map List.length).sum
  support : e.statistics.support = e.support.entryTotal (Handle.first g.atoms.length)
  conditions : e.statistics.preconditions + e.statistics.effects + e.statistics.forbidden =
    choiceTotal p (eligibility p g strategy.eligibility)
  frame : e.statistics.frame = changeTotal e.support (Handle.first g.atoms.length)

/-- **The statistics are right**, of every encoding that there is. -/
theorem isCounted_of_ofProblem (he : ofProblem p g strategy = .ok e) :
    IsCounted p g strategy e := by
  have hkept := Ledger.ofProblem_eq_ok he
  obtain ⟨goal, rs, oss, hgoal, hrs, hoss, rfl⟩ := ofProblem_eq_ok_iff.mp he
  have hos := (isEncoding_assemble hgoal hrs hoss).covers
  have hledger : Ledger.ofOccurrences _ strategy.semantics oss.flatten =
      (assemble p g strategy _ goal oss.flatten).ledger := Ledger.ofOccurrences_eq hos.bounded
  have hbalanced := hledger ▸ Ledger.balanced_ofOccurrences strategy.semantics oss.flatten
  have hlength := length_flatten_occurrences hrs hoss
  obtain ⟨huniversal, htransition, hconditions⟩ := counts_of_balanced hbalanced
  refine ⟨hkept, huniversal, htransition, selectedCount_layoutOf, ?_, ?_, ?_⟩
  · refine (Support.entryTotal_eq fun entry hentry ↦ ?_).symm
    exact index_lt_of_mem_entries hos.bounded hentry
  · exact hconditions.trans hlength
  · exact hos.length_frameClauses

/-- Four conditions mention a door each, of two. Every atom can become true, by a single effect
with its door, and none can become false, so that four of the eight changes have two clauses. -/
theorem isCounted_doors :
    ofProblem doors doorsRelaxed.grounding ⟨.parallel, .lifted⟩ = .ok doorsRelaxedParallel ∧
      IsCounted doors doorsRelaxed.grounding ⟨.parallel, .lifted⟩ doorsRelaxedParallel ∧
      choiceTotal doors (eligibility doors doorsRelaxed.grounding .lifted) = 8 ∧
      changeTotal doorsRelaxedParallel.support (Handle.first 4) = 12 := by
  have he : ofProblem doors doorsRelaxed.grounding ⟨.parallel, .lifted⟩ =
      .ok doorsRelaxedParallel := Fallible.eq_ok_get _
  exact ⟨he, isCounted_of_ofProblem he, by decide +kernel, by decide +kernel⟩

end Encoding

end LiftedPlanning
