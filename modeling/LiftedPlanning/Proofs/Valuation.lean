import LiftedPlanning.Proofs.Layout

/-!
# Assignments from truth values

Every variable of a block stands for a fact. The facts in the order of their variables, with a truth
value each, are a block, and the blocks of the steps are an assignment. It decides all the variables
of the layout, and its literals are true as the facts are.
-/

namespace LiftedPlanning

open Cnf (Assignment Literal)

/-! ## Places in joined lists -/

theorem getElem?_flatMap_range {α : Type} {f : Nat → List α} {n i j : Nat} {x : α} (hi : i < n)
    (h : (f i)[j]? = some x) :
    ((List.range n).flatMap f)[((List.range i).flatMap f).length + j]? = some x := by
  induction n with
  | zero => exact absurd hi (Nat.not_lt_zero i)
  | succ n ih =>
    rw [List.range_succ, List.flatMap_append, List.flatMap_singleton]
    rcases Nat.lt_succ_iff_lt_or_eq.mp hi with hlt | rfl
    · have hx := ih hlt
      obtain ⟨hbound, _⟩ := List.getElem?_eq_some_iff.mp hx
      rwa [List.getElem?_append_left hbound]
    · rwa [List.getElem?_append_right (Nat.le_add_right _ _), Nat.add_sub_cancel_left]

namespace Layout

/-! ## Facts -/

/-- What a variable of a block stands for. -/
inductive Fact
  | active (op : OperatorId)
  | selected (op : OperatorId) (position : Nat) (c : ConstantId)
  | holds (id : AtomId)

variable {l : Layout} {op : OperatorId} {position : Nat}

/-- The selections of a position, in order. -/
def positionFacts (l : Layout) (op : OperatorId) (position : Nat) : List Fact :=
  (l.eligibility.eligible op position).map (.selected op position)

/-- The selections of an operator, in order. -/
def selectionFacts (l : Layout) (op : OperatorId) : List Fact :=
  (l.positions op).flatMap (l.positionFacts op)

/-- The facts of a block, in the order of their variables. -/
def facts (l : Layout) : List Fact :=
  l.operators.map .active ++ (l.operators.flatMap l.selectionFacts ++ l.atoms.map .holds)

theorem length_flatMap_positionFacts (n : Nat) :
    ((List.range n).flatMap (l.positionFacts op)).length =
      Tables.positionCount l.eligibility op n := by
  simp only [List.length_flatMap, positionFacts, List.length_map, Tables.positionCount]

theorem length_flatMap_selectionFacts (n : Nat) :
    ((List.range n).flatMap fun i ↦ l.selectionFacts ⟨i⟩).length =
      Tables.selectionCount l.eligibility n := by
  rw [List.length_flatMap, Tables.selectionCount]
  simp only [selectionFacts, positions, length_flatMap_positionFacts]

theorem flatMap_operators {β : Type} (f : OperatorId → List β) :
    l.operators.flatMap f = (List.range l.operatorCount).flatMap fun i ↦ f ⟨i⟩ := by
  rw [operators, Handle.first, List.flatMap_map]

theorem length_operators : l.operators.length = l.operatorCount := by
  rw [operators, Handle.first, List.length_map, List.length_range]

theorem length_flatMap_operators :
    (l.operators.flatMap l.selectionFacts).length = l.selectedCount := by
  rw [flatMap_operators, length_flatMap_selectionFacts, selectedCount_eq]

theorem length_facts : l.facts.length = l.size := by
  rw [facts, List.length_append, List.length_append, length_flatMap_operators, List.length_map,
    List.length_map, length_operators, atoms, Handle.first, List.length_map, List.length_range,
    size_eq, Nat.add_assoc]

/-! ### Facts of variables -/

theorem getElem?_first {kind : HandleKind} {n : Nat} {h : Handle kind} (hn : h.index < n) :
    (Handle.first n)[h.index]? = some h := by
  rw [Handle.first, List.getElem?_map, List.getElem?_range hn]
  rfl

theorem fact_active (h : op.index < l.operatorCount) :
    l.facts[(l.active op).var]? = some (.active op) := by
  rw [facts, active_eq h, Literal.pos,
    List.getElem?_append_left (by rwa [List.length_map, length_operators]), List.getElem?_map]
  exact congrArg (Option.map Fact.active) (getElem?_first h)

theorem getElem?_selectionFacts (h : op.index < l.operatorCount) {c : ConstantId} {i : Nat}
    (hi : (l.eligibility.eligible op position)[i]? = some c) :
    (l.operators.flatMap l.selectionFacts)[Tables.selectionCount l.eligibility op.index +
      (Tables.positionCount l.eligibility op position + i)]? = some (.selected op position c) := by
  have hlt := lt_arity_of_mem_eligible (List.mem_of_getElem? hi)
  -- its place among the selections of the operator
  have hpos : (l.selectionFacts op)[Tables.positionCount l.eligibility op position + i]? =
      some (.selected op position c) := by
    rw [← length_flatMap_positionFacts]
    exact getElem?_flatMap_range hlt (by rw [positionFacts, List.getElem?_map, hi, Option.map_some])
  rw [← length_flatMap_selectionFacts, flatMap_operators]
  exact getElem?_flatMap_range h hpos

theorem var_selected (h : op.index < l.operatorCount) {c : ConstantId} {i : Nat}
    (hi : (l.eligibility.eligible op position)[i]? = some c) :
    (l.selected op position i).var = l.operatorCount +
      (Tables.selectionCount l.eligibility op.index +
        (Tables.positionCount l.eligibility op position + i)) := by
  rw [selected_eq h (lt_arity_of_mem_eligible (List.mem_of_getElem? hi)), Literal.pos]
  simp only [Nat.add_assoc]

theorem var_selected_lt (h : op.index < l.operatorCount) {c : ConstantId} {i : Nat}
    (hi : (l.eligibility.eligible op position)[i]? = some c) :
    (l.selected op position i).var < l.operatorCount + l.selectedCount := by
  obtain ⟨hbound, _⟩ := List.getElem?_eq_some_iff.mp (getElem?_selectionFacts h hi)
  rw [length_flatMap_operators] at hbound
  rw [var_selected h hi]
  exact Nat.add_lt_add_left hbound _

theorem fact_selected (h : op.index < l.operatorCount) {c : ConstantId} {i : Nat}
    (hi : (l.eligibility.eligible op position)[i]? = some c) :
    l.facts[(l.selected op position i).var]? = some (.selected op position c) := by
  have hop := getElem?_selectionFacts h hi
  obtain ⟨hbound, _⟩ := List.getElem?_eq_some_iff.mp hop
  rw [var_selected h hi, facts, List.getElem?_append_right (by simp [length_operators]), List.length_map,
    length_operators, Nat.add_sub_cancel_left, List.getElem?_append_left hbound, hop]

theorem fact_holds {id : AtomId} (h : id.index < l.atomCount) :
    l.facts[(l.holds id).var]? = some (.holds id) := by
  have hvar : (l.holds id).var = l.operatorCount + (l.selectedCount + id.index) := by
    simp only [holds_eq, Literal.pos, Nat.add_assoc]
  rw [hvar, facts, List.getElem?_append_right (by simp [length_operators]), List.length_map,
    length_operators, Nat.add_sub_cancel_left,
    List.getElem?_append_right (by rw [length_flatMap_operators]; omega), length_flatMap_operators,
    Nat.add_sub_cancel_left, List.getElem?_map, atoms]
  exact congrArg (Option.map Fact.holds) (getElem?_first h)

theorem var_lt_size {literal : Literal} {f : Fact} (h : l.facts[literal.var]? = some f) :
    literal.var < l.size := by
  obtain ⟨hlt, _⟩ := List.getElem?_eq_some_iff.mp h
  rwa [length_facts] at hlt

/-! ## Assignments of blocks -/

/-- The assignment of the blocks up to a horizon, for truth values of the facts of every step. -/
def valuation (l : Layout) (horizon : Nat) (truth : Nat → Fact → Bool) : Assignment :=
  ⟨((List.range (horizon + 1)).flatMap fun k ↦ l.facts.map fun f ↦ some (truth k f)).toArray⟩

variable {horizon k : Nat} {truth : Nat → Fact → Bool} {f : Fact} {literal : Literal}

theorem satisfies_valuation_iff (hk : k ≤ horizon) (hf : l.facts[literal.var]? = some f) :
    ((l.valuation horizon truth).after (k * l.size)).satisfies literal = true ↔
      truth k f = literal.positive := by
  have hlen : ∀ n, ((List.range n).flatMap fun k ↦ l.facts.map fun f ↦ some (truth k f)).length =
      n * l.size := by
    intro n
    induction n with
    | zero => simp
    | succ n ih =>
      rw [List.range_succ, List.flatMap_append, List.length_append, ih, List.flatMap_singleton,
        List.length_map, length_facts, Nat.succ_mul]
  have hplace := getElem?_flatMap_range (f := fun k ↦ l.facts.map fun f ↦ some (truth k f))
    (Nat.lt_succ_of_le hk) (j := literal.var) (x := some (truth k f)) (by
      rw [List.getElem?_map, hf, Option.map_some])
  rw [hlen, Nat.add_comm] at hplace
  rw [Cnf.Assignment.satisfies_iff, Cnf.Assignment.value?_after, Cnf.Assignment.value?, valuation,
    List.getElem?_toArray, hplace]
  simp

theorem decides_valuation (hk : k ≤ horizon) (hf : l.facts[literal.var]? = some f) :
    ((l.valuation horizon truth).after (k * l.size)).Decides literal := by
  have hf' : l.facts[literal.negate.var]? = some f := hf
  rw [Cnf.Assignment.Decides, satisfies_valuation_iff hk hf, satisfies_valuation_iff hk hf']
  cases truth k f <;> cases hp : literal.positive <;> simp [Literal.negate, hp]

end Layout

end LiftedPlanning
