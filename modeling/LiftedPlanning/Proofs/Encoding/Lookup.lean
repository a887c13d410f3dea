import LiftedPlanning.Proofs.Cnf.Literal
import LiftedPlanning.Proofs.Encoding.Range
import LiftedPlanning.Proofs.Handles

/-!
# The encoding in one pass

The encoding can be written as a pass over the operators that does each thing when it comes to it.
It splits the formulas of an operator, maps a condition to parameters, grounds it under one choice
of constants after the other, and looks the literals of the bound constants up in the layout. These
literals are looked up again for every interference clause and every frame clause. Each of these
steps can fail on its own.

Only formulas that are no conjunctions and conditions over other variables ever do fail: the mapping
of a condition binds all that its grounding needs, and constants are only bound where they are
eligible. So the pass ends as `Encoding.ofProblem` does, which looks nothing up.
-/

namespace LiftedPlanning.Encoding

open Cnf (Literal Clause)

variable {p : Problem} {g : Grounding} {mode : EligibilityMode} {l : Layout}

/-! ## The pass -/

namespace OnePass

/-- A failure of the encoding or of a look-up. -/
inductive Failure
  | encoding (cause : EncodingError)
  | layout (cause : LayoutError)

/-- The occurrence of a rule for a choice of constants. -/
def occurrence (p : Problem) (g : Grounding) (l : Layout) (r : Rule)
    (constants : List ConstantId) : Except Failure Occurrence :=
  let binding := Binding.ofMapping r.mapping constants
  match binding.ground? r.schema r.condition with
  | none => .error (.encoding (.openCondition (p.conditionText r.condition)))
  | some a => ((l.conjunction binding).mapError .layout).map fun conjunction ↦
      ⟨r, ⟨binding, conjunction⟩, g.atomId? a⟩

def ruleOccurrences (p : Problem) (g : Grounding) (l : Layout) (r : Rule) :
    Except Failure (List Occurrence) :=
  (combinations (r.mapping.slots.map (l.eligibility.eligible r.operator))).mapM
    (occurrence p g l r)

def conditionOccurrences (p : Problem) (g : Grounding) (l : Layout) (id : OperatorId)
    (name : String) (op : Operator) (role : Role) (c : Condition) :
    Except Failure (List Occurrence) :=
  match Mapping.ofCondition p id op c with
  | .ok mapping => ruleOccurrences p g l ⟨id, op, role, c, mapping⟩
  | .error cause => .error (.encoding (.mapping name cause))

def formulaOccurrences (p : Problem) (g : Grounding) (l : Layout) (id : OperatorId)
    (name : String) (op : Operator) (role : Role) : Except Failure (List Occurrence) :=
  match (op.formula role).flat? with
  | none => .error (.encoding (.complex role name))
  | some conditions =>
    (conditions.mapM (conditionOccurrences p g l id name op role)).map List.flatten

/-- The occurrences of an operator, those of its precondition first. -/
def operatorOccurrences (p : Problem) (g : Grounding) (l : Layout) (id : OperatorId)
    (name : String) (op : Operator) : Except Failure (List Occurrence) := do
  let preconditions ← formulaOccurrences p g l id name op .precondition
  let effects ← formulaOccurrences p g l id name op .effect
  return preconditions ++ effects

/-- The occurrences of all the operators that can be selected. -/
def occurrences (p : Problem) (g : Grounding) (l : Layout) : Except Failure (List Occurrence) :=
  let operators := p.namedOperators.filter fun (id, _) ↦ l.eligibility.isSelectable id
  (operators.mapM fun (id, name, op) ↦ operatorOccurrences p g l id name op).map List.flatten

/-- The interference clauses of the effects that give an atom a sign. -/
def atomInterference (l : Layout) (s : Support Supporter) (a : AtomId) (positive : Bool) :
    Except LayoutError (List Clause) := do
  let clauses ← (s.supporters a positive .effect).mapM fun effect ↦ do
    let needs := (s.supporters a (!positive) .precondition).filter fun need ↦
      need.binding.operator ≠ effect.binding.operator
    let conjunction ← l.conjunction effect.binding
    needs.mapM fun need ↦ do
      let other ← l.conjunction need.binding
      return (conjunction ++ other).map Literal.negate
  return clauses.flatten

def interferenceClauses (l : Layout) (s : Support Supporter) :
    Except LayoutError (List Clause) := do
  let clauses ← [true, false].mapM fun positive ↦ do
    let clauses ← l.atoms.mapM fun a ↦ atomInterference l s a positive
    return clauses.flatten
  return clauses.flatten

/-- The frame clauses for one direction of change of an atom. -/
def changeClauses (l : Layout) (s : Support Supporter) (a : AtomId) (becomesTrue : Bool) :
    Except LayoutError (List Clause) := do
  let branches ← (s.supporters a becomesTrue .effect).mapM fun s ↦ l.conjunction s.binding
  let now := l.holds a
  let next := now.shift l.size
  return clausesOfBranches (if becomesTrue then [now, next.negate] else [now.negate, next]) branches

def frameClauses (l : Layout) (s : Support Supporter) : Except LayoutError (List Clause) := do
  let clauses ← l.atoms.mapM fun a ↦ do
    let clauses ← [true, false].mapM (changeClauses l s a)
    return clauses.flatten
  return clauses.flatten

/-- Adds interference and frame clauses to what the occurrences say. -/
def finish (p : Problem) (g : Grounding) (strategy : Strategy) (l : Layout) (goal : List Literal)
    (occurrences : List Occurrence) : Except Failure Encoding := do
  let support := supportOf occurrences
  let interference ← match strategy.semantics with
    | .sequential => .ok []
    | .parallel => (interferenceClauses l support).mapError .layout
  let frame ← (frameClauses l support).mapError .layout
  return { assemble p g strategy l goal occurrences with
    formula :=
      { initial := initialClauses p g l
        goal
        universal := selectionClauses l strategy.semantics ++
          occurrences.filterMap (·.universalClause? l) ++ interference
        transition := occurrences.filterMap (·.effectClause? l) ++ frame
        stepSize := l.size } }

def ofProblem (p : Problem) (g : Grounding) (strategy : Strategy) : Except Failure Encoding := do
  let l := layoutOf p g strategy.eligibility
  let goal ← (p.goal.mapM (goalLiteral p g l)).mapError .encoding
  let occurrences ← occurrences p g l
  finish p g strategy l goal occurrences

end OnePass

/-! ## Look-ups of literals -/

theorem selectedConstant_eq_ok (hsize : l.size < signBound) {op : OperatorId}
    (hop : op.index < l.operatorCount) {position i : Nat} {c : ConstantId} {set : List ConstantId}
    (hset : l.eligibility.eligible? op position = some set) (hi : set.idxOf? c = some i) :
    l.selectedConstant op position c = .ok (l.selected op position i) := by
  obtain ⟨hlt, hc, _⟩ := List.idxOf?_eq_some_iff.mp hi
  have hplace : (l.eligibility.eligible op position)[i]? = some c := by
    rw [Eligibility.eligible_of_eligible? hset, List.getElem?_eq_getElem hlt, hc]
  have hposition := Layout.lt_arity_of_mem_eligible (List.mem_of_getElem? hplace)
  have hvar : (l.selected op position i).var < l.size :=
    Layout.var_lt_size (Layout.fact_selected hop hplace)
  have hselected : l.selected? op position i = some (l.selected op position i) :=
    (Layout.selected?_eq hop hposition i).trans
      (Literal.ofNumber?_pos (Nat.lt_of_le_of_lt hvar hsize))
  simp only [Layout.selectedConstant, hset, hi, hselected]

/-- **No look-up fails.** The literals of an occurrence are found again by its binding. -/
theorem IsOccurrence.conjunction_eq_ok (hsize : (layoutOf p g mode).size < signBound)
    {o : Occurrence} (ho : IsOccurrence p g (layoutOf p g mode) o) :
    (layoutOf p g mode).conjunction o.supporter.binding = .ok o.supporter.conjunction := by
  have hop : o.rule.operator.index < (layoutOf p g mode).operatorCount :=
    index_lt_operatorCount ho.rule.declared
  obtain ⟨⟨constants, hbinding⟩, _, selections, hconj, hselections⟩ := ho.resolved
  have hoperator : o.supporter.binding.operator = o.rule.operator := by
    rw [Binding.ofMapping?, ho.rule.mapping] at hbinding
    split at hbinding
    · rw [← Option.some.inj hbinding]
      rfl
    · cases hbinding
  have hactive : (layoutOf p g mode).active? o.rule.operator =
      some ((layoutOf p g mode).active o.rule.operator) :=
    (Layout.active?_eq hop).trans
      (Literal.ofNumber?_pos (Nat.lt_of_le_of_lt (Layout.var_active_lt hop) hsize))
  rw [Layout.conjunction, hoperator, hactive, hconj]
  refine Fallible.bind_eq_ok_iff.mpr ⟨selections, Fallible.mapM_eq_ok_iff.mpr ?_, rfl⟩
  refine hselections.imp ?_
  rintro ⟨slot, c⟩ _ ⟨set, i, hset, hi, rfl⟩
  exact selectedConstant_eq_ok hsize hop hset hi

namespace OnePass

/-! ## Occurrences -/

theorem map_fst_choices (op : OperatorId) (position : Nat) :
    (l.choices op position).map (·.1) = l.eligibility.eligible op position := by
  rw [Layout.choices, List.map_map]
  exact List.zipIdx_map_fst 0 _

theorem occurrence_eq_ok (hsize : (layoutOf p g mode).size < signBound) {r : Rule}
    (hr : IsRule p (layoutOf p g mode).eligibility r) {choice : List (ConstantId × Literal)}
    (hc : choice ∈ combinations (r.mapping.slots.map ((layoutOf p g mode).choices r.operator)))
    {o : Occurrence} (ho : r.occurrence p g (layoutOf p g mode) choice = .ok o) :
    occurrence p g (layoutOf p g mode) r (choice.map (·.1)) = .ok o := by
  obtain ⟨a, ha, he⟩ := occurrence_eq_ok_iff.mp ho
  obtain rfl : o.rule = r := by rw [he]
  have hfound := IsOccurrence.conjunction_eq_ok hsize ⟨hr, choice, hc, ho⟩
  have hbinding : o.supporter.binding = Binding.ofMapping o.rule.mapping (choice.map (·.1)) := by
    rw [he]
  have hconj : (layoutOf p g mode).active o.rule.operator :: choice.map (·.2) =
      o.supporter.conjunction := by rw [he]
  rw [hconj] at he
  rw [hbinding] at hfound
  simp only [occurrence, ha, hfound, Except.mapError, Except.map]
  exact congrArg _ he.symm

theorem ruleOccurrences_eq_ok (hsize : (layoutOf p g mode).size < signBound) {r : Rule}
    (hr : IsRule p (layoutOf p g mode).eligibility r) {os : List Occurrence}
    (hos : r.occurrences p g (layoutOf p g mode) = .ok os) :
    ruleOccurrences p g (layoutOf p g mode) r = .ok os := by
  have hsets : r.mapping.slots.map ((layoutOf p g mode).eligibility.eligible r.operator) =
      (r.mapping.slots.map ((layoutOf p g mode).choices r.operator)).map (List.map (·.1)) := by
    rw [List.map_map]
    exact List.map_congr_left fun position _ ↦ (map_fst_choices r.operator position).symm
  rw [ruleOccurrences, hsets, combinations_map, Fallible.mapM_eq_ok_iff, List.forall₂_map_left_iff]
  exact Fallible.forall₂_imp_left (fun choice hc o ↦ occurrence_eq_ok hsize hr hc)
    (Fallible.mapM_eq_ok_iff.mp hos)

/-- The occurrences that a rule has. -/
def occurrencesOf (p : Problem) (g : Grounding) (l : Layout) (r : Rule) : List Occurrence :=
  (r.occurrences p g l).toOption.getD []

theorem occurrences_eq_ok {r : Rule} (hr : IsRule p l.eligibility r) :
    r.occurrences p g l = .ok (occurrencesOf p g l r) := by
  obtain ⟨os, hos⟩ := Fallible.exists_mapM_eq_ok (f := r.occurrence p g l)
    fun choice hc ↦ exists_occurrence hr hc
  rw [occurrencesOf, Rule.occurrences, hos]
  rfl

/-! ## Operators -/

/-- The rule of a condition, if the condition is over the parameters. -/
def conditionRule (p : Problem) (id : OperatorId) (name : String) (op : Operator) (role : Role)
    (c : Condition) : Except EncodingError Rule :=
  match Mapping.ofCondition p id op c with
  | .ok mapping => .ok ⟨id, op, role, c, mapping⟩
  | .error cause => .error (.mapping name cause)

/-- What the pass makes of some rules, or of a failure to find them. -/
def outcome (p : Problem) (g : Grounding) (l : Layout) (rs : Except EncodingError (List Rule)) :
    Except Failure (List Occurrence) :=
  (rs.map (List.flatMap (occurrencesOf p g l))).mapError .encoding

/-- Rules that are found part by part give the occurrences part by part. -/
theorem outcome_map_flatten (rss : Except EncodingError (List (List Rule))) :
    ((rss.map (List.map (List.flatMap (occurrencesOf p g l)))).mapError Failure.encoding).map
      List.flatten = outcome p g l (rss.map List.flatten) := by
  cases rss with
  | error e => rfl
  | ok rss =>
    refine congrArg Except.ok ?_
    rw [List.flatMap_def, List.map_flatten, List.flatten_flatten, List.map_map]
    exact congrArg List.flatten (List.map_congr_left fun rs _ ↦ List.flatMap_def)

section Pass

variable (hsize : (layoutOf p g mode).size < signBound) {id : OperatorId} {name : String}
  {op : Operator} {role : Role}

include hsize

theorem conditionOccurrences_eq (hop : p.operator? id = some op)
    (hsel : (layoutOf p g mode).eligibility.isSelectable id = true) {c : Condition}
    (hc : c ∈ (op.formula role).flat) :
    conditionOccurrences p g (layoutOf p g mode) id name op role c =
      ((conditionRule p id name op role c).map
        (occurrencesOf p g (layoutOf p g mode))).mapError .encoding := by
  cases hm : Mapping.ofCondition p id op c with
  | error cause => rw [conditionOccurrences, conditionRule, hm, Except.map, Except.mapError]
  | ok mapping =>
    obtain ⟨hs, rfl⟩ := Mapping.ofCondition_eq_ok_iff.mp hm
    have hr : IsRule p (layoutOf p g mode).eligibility (ruleOf id op role c) :=
      ⟨hop, hsel, hc, hs, rfl⟩
    rw [conditionOccurrences, conditionRule, hm]
    exact ruleOccurrences_eq_ok hsize hr (occurrences_eq_ok hr)

theorem formulaOccurrences_eq (hop : p.operator? id = some op)
    (hsel : (layoutOf p g mode).eligibility.isSelectable id = true) :
    formulaOccurrences p g (layoutOf p g mode) id name op role =
      outcome p g (layoutOf p g mode) (formulaRules p id name op role) := by
  cases h : (op.formula role).flat? with
  | none =>
    rw [formulaOccurrences, formulaRules, h]
    rfl
  | some conditions =>
    obtain ⟨_, rfl⟩ := Formula.flat?_eq_some_iff.mp h
    rw [formulaOccurrences, formulaRules, h]
    have hmap : (op.formula role).flat.mapM
        (conditionOccurrences p g (layoutOf p g mode) id name op role) = _ :=
      Fallible.mapM_eq_mapError_map fun c hc ↦ conditionOccurrences_eq hsize hop hsel hc
    simp only [hmap]
    change _ = outcome p g _ ((op.formula role).flat.mapM (conditionRule p id name op role))
    cases (op.formula role).flat.mapM (conditionRule p id name op role) <;> rfl

theorem operatorOccurrences_eq (hop : p.operator? id = some op)
    (hsel : (layoutOf p g mode).eligibility.isSelectable id = true) :
    operatorOccurrences p g (layoutOf p g mode) id name op =
      outcome p g (layoutOf p g mode) (operatorRules p id name op) := by
  rw [operatorOccurrences, operatorRules, formulaOccurrences_eq hsize hop hsel,
    formulaOccurrences_eq hsize hop hsel]
  cases formulaRules p id name op .precondition with
  | error e => rfl
  | ok preconditions =>
    cases formulaRules p id name op .effect with
    | error e => rfl
    | ok effects =>
      refine congrArg Except.ok ?_
      exact List.flatMap_append.symm

theorem occurrences_eq :
    occurrences p g (layoutOf p g mode) =
      outcome p g (layoutOf p g mode) (rules p (layoutOf p g mode).eligibility) := by
  have hmap : (p.namedOperators.filter fun entry ↦
      (layoutOf p g mode).eligibility.isSelectable entry.1).mapM
        (fun entry ↦ operatorOccurrences p g (layoutOf p g mode) entry.1 entry.2.1 entry.2.2) = _ :=
    Fallible.mapM_eq_mapError_map fun entry hentry ↦ by
      obtain ⟨hmem, hsel⟩ := List.mem_filter.mp hentry
      exact operatorOccurrences_eq hsize
        (Problem.operator?_eq_some_iff.mpr ⟨entry.2.1, hmem⟩) hsel
  rw [occurrences, hmap, outcome_map_flatten]
  rfl

end Pass

/-! ## Interference and frame clauses -/

/-- The literals of the supporters of an index are found by their bindings. -/
def Found (l : Layout) (s : Support Supporter) : Prop :=
  ∀ a positive role, ∀ supporter ∈ s.supporters a positive role,
    l.conjunction supporter.binding = .ok supporter.conjunction

theorem found_supportOf (hsize : (layoutOf p g mode).size < signBound) {os : List Occurrence}
    (hos : ∀ o ∈ os, IsOccurrence p g (layoutOf p g mode) o) :
    Found (layoutOf p g mode) (supportOf os) := by
  intro a positive role supporter hs
  rw [← Bool.not_not positive] at hs
  obtain ⟨o, ho, _, _, _, rfl⟩ := mem_supporters_iff.mp hs
  exact (hos o ho).conjunction_eq_ok hsize

theorem interferenceClauses_eq_ok {s : Support Supporter} (h : Found l s) :
    interferenceClauses l s = .ok (Encoding.interferenceClauses l s) := by
  refine Fallible.mapM_flatten_eq_ok fun positive _ ↦ ?_
  refine Fallible.mapM_flatten_eq_ok fun a _ ↦ ?_
  refine Fallible.mapM_flatten_eq_ok fun effect heffect ↦ ?_
  rw [h a positive .effect effect heffect]
  refine Fallible.mapM_eq_ok_map fun need hneed ↦ ?_
  rw [h a (!positive) .precondition need (List.mem_filter.mp hneed).1]
  rfl

theorem frameClauses_eq_ok {s : Support Supporter} (h : Found l s) :
    frameClauses l s = .ok (Encoding.frameClauses l s) := by
  refine Fallible.mapM_flatten_eq_ok fun a _ ↦ ?_
  refine Fallible.mapM_flatten_eq_ok fun becomesTrue _ ↦ ?_
  rw [changeClauses, Fallible.mapM_eq_ok_map (h a becomesTrue .effect)]
  rfl

/-! ## The whole pass -/

theorem finish_eq_ok {strategy : Strategy} {goal : List Literal} {os : List Occurrence}
    (h : Found l (supportOf os)) :
    finish p g strategy l goal os = .ok (assemble p g strategy l goal os) := by
  obtain ⟨semantics, mode⟩ := strategy
  cases semantics with
  | sequential =>
    rw [finish, frameClauses_eq_ok h]
    rfl
  | parallel =>
    rw [finish, interferenceClauses_eq_ok h, frameClauses_eq_ok h]
    rfl

/-- **The pass ends as the encoding does**, with the same encoding or the same failure, if the
variables of a block can be counted in signed words. -/
theorem ofProblem_eq {strategy : Strategy}
    (hsize : (layoutOf p g strategy.eligibility).size < signBound) :
    ofProblem p g strategy = (Encoding.ofProblem p g strategy).mapError .encoding := by
  rw [ofProblem, Encoding.ofProblem, occurrences_eq hsize]
  cases p.goal.mapM (goalLiteral p g (layoutOf p g strategy.eligibility)) with
  | error e => rfl
  | ok goal =>
    cases hrs : rules p (layoutOf p g strategy.eligibility).eligibility with
    | error e => rfl
    | ok rs =>
      have hoss := Fallible.mapM_eq_ok_map (f := Rule.occurrences p g _) fun r hr ↦
        occurrences_eq_ok ((mem_rules_iff hrs).mp hr)
      have hfound : Found (layoutOf p g strategy.eligibility)
          (supportOf (rs.flatMap (occurrencesOf p g (layoutOf p g strategy.eligibility)))) := by
        rw [List.flatMap_def]
        exact found_supportOf hsize fun o ho ↦ (mem_occurrences_iff hrs hoss).mp ho
      change finish p g strategy _ goal (rs.flatMap _) =
        Except.mapError _ (rs.mapM _ >>= fun oss ↦
          Except.ok (assemble p g strategy _ goal oss.flatten))
      rw [finish_eq_ok hfound, hoss, List.flatMap_def]
      rfl

end OnePass

end LiftedPlanning.Encoding
