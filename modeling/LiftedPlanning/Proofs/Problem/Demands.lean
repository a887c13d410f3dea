import LiftedPlanning.Proofs.Formula.Splitting
import LiftedPlanning.Proofs.Problem.History

/-!
# What is demanded of operators

Operations on a problem are tried one after the other, and those that fail leave the problem as it
is. What an operator demands in the end is what the operations that succeeded have demanded of it,
in their order; neither the other operators nor the other role get anything of it.
-/

namespace LiftedPlanning.Problem

variable {p q : Problem} {edit : Edit} {answer : Answer} {role : Role} {op : OperatorId}

/-! ## One operation -/

/-- What is demanded of an operator in a role; nothing, as long as there is no such operator. -/
def formula (p : Problem) (role : Role) (op : OperatorId) : Formula :=
  ((p.operator? op).map (·.formula role)).getD .truth

theorem formula_of_operator? {schema : Operator} (h : p.operator? op = some schema) :
    p.formula role op = schema.formula role := by
  rw [formula, h, Option.map_some, Option.getD_some]

theorem formula_empty : empty.formula role op = .truth := by
  rw [formula, operator?, empty, Catalog.value?, List.getElem?_nil]
  rfl

theorem Keeps.formula_eq (h : p.Keeps q) : q.formula role op = p.formula role op := by
  cases hp : p.operator? op with
  | some schema => rw [formula_of_operator? (h.old op schema hp), formula_of_operator? hp]
  | none =>
    have htruth : p.formula role op = .truth := by rw [formula, hp]; rfl
    rw [htruth]
    cases hq : q.operator? op with
    | none => rw [formula, hq]; rfl
    | some schema =>
      rw [formula_of_operator? hq]
      exact (h.new op schema hq).elim (fun hold ↦ by cases hp.symm.trans hold) (· role)

theorem formula_demand {role' : Role} {op' : OperatorId} {f : Formula}
    (hop : op'.index < p.operators.size) :
    (p.demand role' op' f).formula role op =
      if role = role' ∧ op' = op then (p.formula role op).and f else p.formula role op := by
  by_cases heq : op' = op
  · subst heq
    obtain ⟨schema, hschema⟩ := Catalog.exists_value? hop
    have hdemand : (p.demand role' op' f).operator? op' = some (schema.demand role' f) := by
      rw [operator?_demand, if_pos rfl, operator?, hschema, Option.map_some]
    rw [formula_of_operator? hdemand, formula_of_operator? hschema, Operator.formula_demand]
    simp [eq_comm]
  · rw [formula, operator?_demand, if_neg heq, if_neg fun h ↦ heq h.2, formula]

/-- **One operation** adds the formula that it demands at the end. -/
theorem formula_perform (hp : p.WellFormed) (h : p.perform edit = .ok (answer, q)) :
    q.formula role op = (edit.formula? role op).toList.foldl Formula.and (p.formula role op) := by
  cases edit
  case precondition op' f | effect op' f =>
    obtain ⟨r, hr, heq⟩ := Fallible.map_eq_ok_iff.mp h
    obtain ⟨rfl, rfl⟩ := Prod.mk.inj heq
    obtain ⟨hop, -, rfl⟩ := addFormula_eq_ok_iff.mp hr
    rw [formula_demand hop, Edit.formula?]
    split <;> rfl
  all_goals exact (keeps_of_perform hp (fun _ _ ↦ rfl) h).formula_eq

/-! ## Sequences of operations -/

/-- Tries operations one after the other: the problem in the end, and the operations that succeeded.
The others leave the problem as it is. -/
def attempt (p : Problem) : List Edit → Problem × List Edit
  | [] => (p, [])
  | edit :: edits =>
    match p.perform edit with
    | .ok (_, q) => ((q.attempt edits).1, edit :: (q.attempt edits).2)
    | .error _ => p.attempt edits

/-- **Sequences of operations** add the formulas that are demanded by those that succeed. -/
theorem Consistent.formula_attempt (hp : p.Consistent) (edits : List Edit) :
    (p.attempt edits).1.formula role op =
      ((p.attempt edits).2.filterMap (·.formula? role op)).foldl Formula.and
        (p.formula role op) := by
  induction edits generalizing p with
  | nil => rfl
  | cons edit edits ih =>
    rw [attempt]
    split
    · rename_i answer q hq
      rw [ih (hp.perform hq), formula_perform hp.toWellFormed hq, ← List.foldl_append]
      congr 1
      cases hf : edit.formula? role op <;> simp [hf]
    · exact ih hp

/-- **Splitting is faithful.** The flat part and the residual of any formula are a split of it: they
say what it says, they keep its conditions in order, the residual is there exactly if a disjunction
of more or of fewer operands than one is demanded outright, and it cannot be split again. Whatever
operations were tried on a problem, the flat conditions of an operator in a role are those of the
formulas that were successfully demanded of it in that role, in the order of the operations. -/
theorem isSplit_and_flat_attempt (f : Formula) (edits : List Edit) :
    f.IsSplit f.flat f.residual ∧
    ∀ role op schema, (empty.attempt edits).1.operator? op = some schema →
      (schema.formula role).flat =
        ((empty.attempt edits).2.filterMap (·.formula? role op)).flatMap Formula.flat := by
  refine ⟨f.isSplit, fun role op schema hop ↦ ?_⟩
  rw [← formula_of_operator? hop, consistent_empty.formula_attempt, Formula.flat_foldl_and,
    formula_empty, Formula.truth, Formula.flat_conj, List.flatMap_nil, List.nil_append]

/-- Lifting needs a free hand, and it needs a block that is clear or light. The demand on an unknown
operator and the one with an unknown predicate fail. -/
def liftEdits : List Edit :=
  let holding : Formula := .literal (.positive ⟨0⟩ [])
  let clear : Formula := .literal (.positive ⟨1⟩ [])
  let light : Formula := .literal (.positive ⟨2⟩ [])
  [.predicate "holding" [], .predicate "clear" [], .predicate "light" [], .operator "lift" [],
    .precondition ⟨0⟩ (.disj [.literal (.negative ⟨0⟩ [])]), .precondition ⟨1⟩ clear,
    .effect ⟨0⟩ (.conj [holding, .literal (.negative ⟨1⟩ [])]),
    .precondition ⟨0⟩ (.literal (.positive ⟨3⟩ [])), .precondition ⟨0⟩ (.disj [clear, light]),
    .precondition ⟨0⟩ (.conj [light])]

/-- What is demanded of lifting outright, and what it says besides that. -/
theorem flat_attempt_lift :
    ∃ lift, (empty.attempt liftEdits).1.operator? ⟨0⟩ = some lift ∧
      (lift.formula .precondition).flat = [.negative ⟨0⟩ [], .positive ⟨2⟩ []] ∧
      (lift.formula .effect).flat = [.positive ⟨0⟩ [], .negative ⟨1⟩ []] ∧
      ∀ v, (lift.formula .precondition).eval v = true ↔
        (v (.negative ⟨0⟩ []) = true ∧ v (.positive ⟨2⟩ []) = true) ∧
          Formula.eval v (.disj [.literal (.positive ⟨1⟩ []), .literal (.positive ⟨2⟩ [])]) =
            true := by
  refine ⟨_, rfl, (isSplit_and_flat_attempt .truth liftEdits).2 .precondition ⟨0⟩ _ rfl,
    (isSplit_and_flat_attempt .truth liftEdits).2 .effect ⟨0⟩ _ rfl, fun v ↦ ?_⟩
  refine ((isSplit_and_flat_attempt _ liftEdits).1.eval_iff v).trans (and_congr ?_ ?_)
  · exact List.forall_mem_cons.trans (and_congr_right fun _ ↦ List.forall_mem_singleton)
  · exact ⟨fun h ↦ h _ rfl, fun h ↦ by rintro _ ⟨⟩; exact h⟩

end LiftedPlanning.Problem
