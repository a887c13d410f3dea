import LiftedPlanning.Encoding.Basic
import LiftedPlanning.Proofs.Catalog
import LiftedPlanning.Proofs.Combination
import LiftedPlanning.Proofs.Fallible
import LiftedPlanning.Proofs.Layout

/-!
# Eligible sets of declared operators

Both sources of eligible constants give a set to each parameter of each declared operator, without
repetition. By type, a set depends on the problem alone; by reachability, it holds what the actions
of the grounding bind.
-/

namespace LiftedPlanning

variable {p : Problem} {g : Grounding} {op : OperatorId} {schema : Operator}

/-! ## Declared operators -/

namespace Problem

theorem mem_namedOperators_iff {name : String} :
    (op, name, schema) ∈ p.namedOperators ↔
      p.operators.entries[op.index]? = some (name, schema) := by
  rw [namedOperators, List.mem_map]
  constructor
  · rintro ⟨⟨entry, i⟩, h, he⟩
    obtain ⟨rfl, rfl⟩ := Prod.mk.inj he
    exact List.mem_zipIdx_iff_getElem?.mp h
  · exact fun h ↦ ⟨((name, schema), op.index), List.mem_zipIdx_iff_getElem?.mpr h, rfl⟩

theorem operator?_eq_some_iff :
    p.operator? op = some schema ↔ ∃ name, (op, name, schema) ∈ p.namedOperators := by
  simp [mem_namedOperators_iff, operator?, Catalog.value?]

theorem index_lt_of_operator? (h : p.operator? op = some schema) :
    op.index < p.operators.size :=
  Catalog.index_lt_of_value? h

theorem exists_operator? (h : op.index < p.operators.size) :
    ∃ schema, p.operator? op = some schema :=
  Catalog.exists_value? h

/-- Whether a constant may be bound to a parameter: its type is the type of the parameter or one of
the subtypes. -/
def fits (p : Problem) (v : VariableId) (c : ConstantId) : Bool :=
  match p.variableType? v, p.constantType? c with
  | some expected, some actual => p.types.isSupertype expected actual
  | _, _ => false

end Problem

/-! ## Sets of operators -/

namespace Eligibility

theorem mem_combinations_setsOf_iff {e : Eligibility} {args : List ConstantId} :
    args ∈ combinations (e.setsOf op) ↔ args.length = e.arity op ∧
      ∀ position c, args[position]? = some c → c ∈ e.eligible op position := by
  rw [mem_combinations, List.forall₂_iff_get, arity]
  refine and_congr_right fun hlen ↦ ?_
  simp only [List.getElem?_eq_some_iff, List.get_eq_getElem, eligible]
  constructor
  · rintro h i _ ⟨hi, rfl⟩
    have hi' : i < (e.setsOf op).length := hlen ▸ hi
    rw [List.getElem?_eq_getElem hi']
    exact h i hi hi'
  · intro h i hi hi'
    have := h i _ ⟨hi, rfl⟩
    rwa [List.getElem?_eq_getElem hi'] at this

theorem eligible_eq_getD (e : Eligibility) (op : OperatorId) (position : Nat) :
    e.eligible op position = (e.eligible? op position).getD [] := by
  rw [eligible, setsOf, eligible?]
  cases e.sets[op.index]? <;> rfl

theorem eligible_of_eligible? {e : Eligibility} {position : Nat} {set : List ConstantId}
    (h : e.eligible? op position = some set) : e.eligible op position = set := by
  rw [eligible_eq_getD, h, Option.getD_some]

theorem isSelectable_iff {e : Eligibility} :
    e.isSelectable op = true ↔ ∀ set ∈ e.setsOf op, set ≠ [] := by
  simp [isSelectable]

theorem isSelectable_of_mem {e : Eligibility} {args : List ConstantId}
    (h : args ∈ combinations (e.setsOf op)) : e.isSelectable op = true := by
  rw [isSelectable, List.all_eq_true]
  intro set hset
  obtain ⟨c, _, hc⟩ := Fallible.exists_left (mem_combinations.mp h) hset
  cases set with
  | nil => cases hc
  | cons _ _ => rfl

theorem setsOf_byType (h : p.operator? op = some schema) :
    (byType p).setsOf op = schema.parameters.map fun v ↦
      p.constantIds.filter (p.fits v) := by
  obtain ⟨entry, he, rfl⟩ := Option.map_eq_some_iff.mp h
  rw [setsOf, byType, Catalog.values, List.map_map, List.getElem?_map, he]
  rfl

theorem setsOf_byReachability (h : p.operator? op = some schema) :
    (byReachability p g).setsOf op = (List.range schema.arity).map fun position ↦
      p.constantIds.filter fun c ↦
        (g.actions.filter fun a ↦ a.operator = op).any fun a ↦ a.args[position]? == some c := by
  obtain ⟨⟨name, _⟩, he, rfl⟩ := Option.map_eq_some_iff.mp h
  simp [setsOf, byReachability, Problem.namedOperators, he]

theorem arity_byType (h : p.operator? op = some schema) : (byType p).arity op = schema.arity := by
  rw [arity, setsOf_byType h, List.length_map, Operator.arity]

theorem mem_constantIds_of_mem_eligible_byType (h : p.operator? op = some schema) {position : Nat}
    {c : ConstantId} (hc : c ∈ (byType p).eligible op position) : c ∈ p.constantIds := by
  rw [eligible, setsOf_byType h, List.getElem?_map] at hc
  cases hv : schema.parameters[position]? with
  | none => simp [hv] at hc
  | some v =>
    rw [hv] at hc
    exact (List.mem_filter.mp hc).1

theorem mem_constantIds_of_mem_combinations_byType (h : p.operator? op = some schema)
    {args : List ConstantId} (hargs : args ∈ combinations ((byType p).setsOf op)) :
    ∀ c ∈ args, c ∈ p.constantIds := by
  intro c hc
  obtain ⟨position, hposition⟩ := List.mem_iff_getElem?.mp hc
  have heligible := (mem_combinations_setsOf_iff.mp hargs).2 position c hposition
  exact mem_constantIds_of_mem_eligible_byType h heligible

theorem mem_eligible_byReachability_iff (h : p.operator? op = some schema) {position : Nat}
    {c : ConstantId} :
    c ∈ (byReachability p g).eligible op position ↔ position < schema.arity ∧ c ∈ p.constantIds ∧
      ∃ a ∈ g.actions, a.operator = op ∧ a.args[position]? = some c := by
  rw [eligible, setsOf_byReachability h, List.getElem?_map]
  by_cases hp : position < schema.arity
  · simp [hp]
  · simp [hp]

end Eligibility

/-! ## Layouts of encodings -/

namespace Encoding

variable {mode : EligibilityMode}

theorem arity_eligibility (h : p.operator? op = some schema) :
    (eligibility p g mode).arity op = schema.arity := by
  cases mode with
  | lifted => exact Eligibility.arity_byType h
  | grounded =>
    rw [eligibility, Eligibility.arity, Eligibility.setsOf_byReachability h, List.length_map,
      List.length_range]

theorem length_sets_eligibility : (eligibility p g mode).sets.length = p.operators.size := by
  cases mode <;>
    simp [eligibility, Eligibility.byType, Eligibility.byReachability, Catalog.values,
      Problem.namedOperators, Catalog.size]

theorem operatorCount_layoutOf : (layoutOf p g mode).operatorCount = p.operators.size :=
  (Layout.operatorCount_ofEligibility _ _).trans length_sets_eligibility

theorem index_lt_operatorCount (h : p.operator? op = some schema) :
    op.index < (layoutOf p g mode).operatorCount :=
  operatorCount_layoutOf ▸ Problem.index_lt_of_operator? h

theorem arity_layoutOf (h : p.operator? op = some schema) :
    (layoutOf p g mode).eligibility.arity op = schema.arity :=
  arity_eligibility h

theorem nodup_eligible (position : Nat) :
    ((layoutOf p g mode).eligibility.eligible op position).Nodup := by
  have hsets : ∀ sets ∈ (eligibility p g mode).sets, ∀ set ∈ sets, set.Nodup := by
    cases mode with
    | lifted =>
      simp only [eligibility, Eligibility.byType, List.forall_mem_map]
      exact fun _ _ _ _ ↦ (Handle.nodup_first _).filter _
    | grounded =>
      simp only [eligibility, Eligibility.byReachability, List.forall_mem_map]
      exact fun _ _ _ _ ↦ (Handle.nodup_first _).filter _
  rw [Eligibility.eligible, Eligibility.setsOf]
  cases hs : (layoutOf p g mode).eligibility.sets[op.index]? with
  | none => simp
  | some sets =>
    rw [Option.getD_some]
    cases hset : sets[position]? with
    | none => simp
    | some set => exact hsets sets (List.mem_of_getElem? hs) set (List.mem_of_getElem? hset)

end Encoding

end LiftedPlanning
