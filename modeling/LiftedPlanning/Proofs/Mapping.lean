import LiftedPlanning.Mapping
import LiftedPlanning.Proofs.Fallible
import LiftedPlanning.Proofs.Formula

/-!
# Bindings and full arguments

A binding gives constants to the parameters that a condition mentions. If it agrees with a full list
of arguments, it grounds the condition to the same atom. This is why the encoding may choose
constants for these parameters only.
-/

namespace LiftedPlanning

/-! ## Grounding conditions -/

namespace Condition

variable {c : Condition} {binding binding' : VariableId → Option ConstantId}

theorem mem_vars_iff {v : VariableId} : v ∈ c.vars ↔ .param v ∈ c.args := by
  rw [vars, List.mem_filterMap]
  constructor
  · rintro ⟨_ | w, ht, h⟩
    · cases h
    · exact Option.some.inj h ▸ ht
  · exact fun h ↦ ⟨.param v, h, rfl⟩

theorem groundWith_congr (h : ∀ v ∈ c.vars, binding v = binding' v) :
    c.groundWith binding = c.groundWith binding' := by
  have hargs : ∀ t ∈ c.args, t.bind? binding = t.bind? binding' := by
    intro t ht
    cases t with
    | const k => rfl
    | param v => exact h v (mem_vars_iff.mpr ht)
  rw [groundWith, groundWith]
  exact congrArg _ (Fallible.mapM_congr hargs)

theorem exists_groundWith (h : ∀ v ∈ c.vars, ∃ k, binding v = some k) :
    ∃ a, c.groundWith binding = some a := by
  obtain ⟨ks, hks⟩ : ∃ ks, c.args.mapM (Term.bind? binding) = some ks := by
    refine Fallible.exists_mapM_eq_some fun t ht ↦ ?_
    cases t with
    | const k => exact ⟨k, rfl⟩
    | param v => exact h v (mem_vars_iff.mpr ht)
  exact ⟨⟨c.predicate, ks⟩, by rw [groundWith, hks]; rfl⟩

theorem exists_groundAtom? (h : c.isGround = true) : ∃ a, c.groundAtom? = some a := by
  rw [isGround, List.isEmpty_iff] at h
  exact exists_groundWith (h ▸ List.forall_mem_nil _)

theorem groundAtom?_toCondition (a : GroundAtom) : a.toCondition.groundAtom? = some a :=
  Option.map_eq_some_iff.mpr ⟨a.args, Fallible.mapM_eq_some_iff.mpr
    (List.forall₂_map_left_iff.mpr (List.forall₂_same.mpr fun _ _ ↦ rfl)), rfl⟩

theorem toCondition_of_groundAtom? {a : GroundAtom} (h : c.groundAtom? = some a)
    (hn : c.negated = false) : a.toCondition = c := by
  obtain ⟨ks, hks, rfl⟩ := Option.map_eq_some_iff.mp h
  have hargs : ks.map Term.const = c.args := by
    rw [← List.forall₂_eq_eq_eq, List.forall₂_map_left_iff]
    refine (Fallible.mapM_eq_some_iff.mp hks).flip.imp fun k t ht ↦ ?_
    cases t with
    | const k' => exact congrArg Term.const (Option.some.inj ht).symm
    | param v => cases ht
  obtain ⟨predicate, args, negated⟩ := c
  subst hn hargs
  rfl

end Condition

namespace Operator

variable {op : Operator} {args : List ConstantId} {v : VariableId}

theorem position?_eq_some {slot : Nat} (h : op.position? v = some slot) :
    op.parameters[slot]? = some v := by
  obtain ⟨hi, he, _⟩ := List.idxOf?_eq_some_iff.mp h
  rw [List.getElem?_eq_getElem hi, he]

theorem exists_argument? (hlen : args.length = op.arity) (hv : (op.position? v).isSome = true) :
    ∃ k, op.argument? args v = some k := by
  obtain ⟨slot, hslot⟩ := Option.isSome_iff_exists.mp hv
  obtain ⟨hi, _⟩ := List.getElem?_eq_some_iff.mp (position?_eq_some hslot)
  have hlt : slot < args.length := hlen ▸ hi
  exact ⟨args[slot], by rw [argument?, hslot, Option.bind_some, List.getElem?_eq_getElem hlt]⟩

end Operator

/-- The variables of a condition are parameters of the operator. -/
def Operator.Scopes (op : Operator) (c : Condition) : Prop :=
  ∀ v ∈ c.vars, (op.position? v).isSome = true

theorem Operator.scopes_iff {op : Operator} {c : Condition} :
    op.Scopes c ↔ ¬c.vars.any (fun v ↦ (op.position? v).isNone) = true := by
  simp [Operator.Scopes, Option.isSome_iff_ne_none]

theorem Operator.Scopes.exists_groundWith {op : Operator} {c : Condition} (h : op.Scopes c)
    {args : List ConstantId} (hlen : args.length = op.arity) :
    ∃ a, c.groundWith (op.argument? args) = some a :=
  Condition.exists_groundWith fun v hv ↦ exists_argument? hlen (h v hv)

/-! ## Simple operators -/

theorem Formula.flat?_eq_some_iff {f : Formula} {cs : List Condition} :
    f.flat? = some cs ↔ f.residual = none ∧ cs = f.flat := by
  rw [flat?]
  split
  · rename_i h
    simp [h, eq_comm]
  · rename_i h
    simp [h]

theorem Formula.flat?_eq_none_iff {f : Formula} : f.flat? = none ↔ f.residual ≠ none := by
  rw [Option.eq_none_iff_forall_ne_some]
  constructor
  · exact fun h hres ↦ h f.flat (flat?_eq_some_iff.mpr ⟨hres, rfl⟩)
  · exact fun h cs hcs ↦ h (flat?_eq_some_iff.mp hcs).1

theorem Role.forall_iff {q : Role → Prop} :
    (∀ role, q role) ↔ q .precondition ∧ q .effect := by
  refine ⟨fun h ↦ ⟨h .precondition, h .effect⟩, fun ⟨hpre, heff⟩ role ↦ ?_⟩
  cases role with
  | precondition => exact hpre
  | effect => exact heff

/-- The precondition and the effect are conjunctions of conditions over the parameters. -/
def Operator.Simple (op : Operator) : Prop :=
  ∀ role, (op.formula role).residual = none ∧ ∀ c ∈ (op.formula role).flat, op.Scopes c

theorem Operator.scopes_iff_subset {op : Operator} {c : Condition} :
    op.Scopes c ↔ ∀ v ∈ c.vars, v ∈ op.parameters :=
  forall₂_congr fun _ _ ↦ List.isSome_idxOf?

/-- An operator is not simple if one of its formulas has a residual or mentions, wherever, a
variable that is no parameter. -/
theorem Operator.not_simple_iff {op : Operator} :
    ¬op.Simple ↔ ∃ role, (op.formula role).residual ≠ none ∨
      ∃ c ∈ (op.formula role).conditions, ∃ v ∈ c.vars, v ∉ op.parameters := by
  simp only [Simple, not_forall, not_and_or, scopes_iff_subset]
  refine exists_congr fun role ↦ ?_
  by_cases hr : (op.formula role).residual = none
  · simp [hr, Formula.flat_eq_conditions (Formula.residual_eq_none_iff.mp hr)]
  · simp [hr]

theorem Operator.simple_iff {op : Operator} :
    op.Simple ↔ (op.precondition.residual = none ∧ op.effect.residual = none) ∧
      ∀ c ∈ op.precondition.flat ++ op.effect.flat, op.Scopes c := by
  rw [Simple, Role.forall_iff, List.forall_mem_append]
  exact and_and_and_comm

/-! ## Mappings -/

namespace Mapping

variable {op : Operator} {c : Condition}

theorem ofCondition_eq_ok_iff {p : Problem} {id : OperatorId} {m : Mapping} :
    ofCondition p id op c = .ok m ↔ op.Scopes c ∧ m = ⟨id, pairsOf op c⟩ := by
  rw [ofCondition]
  split
  · rename_i v hv
    have hn : ¬op.Scopes c := fun h ↦ by
      have := h v (List.mem_of_find?_eq_some hv)
      have := List.find?_some hv
      simp_all
    simp [hn]
  · rename_i hv
    have hs : op.Scopes c := fun v hm ↦ by
      simpa [Option.isSome_iff_ne_none] using List.find?_eq_none.mp hv v hm
    simp [hs, eq_comm]

theorem mem_slots_iff {id : OperatorId} {slot : Nat} :
    slot ∈ (⟨id, pairsOf op c⟩ : Mapping).slots ↔
      ∃ v, op.parameters[slot]? = some v ∧ v ∈ c.vars := by
  simp only [slots, pairsOf, List.map_filterMap, List.mem_filterMap, Option.map_map, Prod.exists,
    List.mem_zipIdx_iff_getElem?, Option.map_eq_some_iff, Condition.mem_vars_iff, Function.comp]
  constructor
  · rintro ⟨v, i, hv, j, hj, rfl⟩
    exact ⟨v, hv, List.isSome_idxOf?.mp (Option.isSome_of_eq_some hj)⟩
  · rintro ⟨v, hv, hm⟩
    obtain ⟨j, hj⟩ := Option.isSome_iff_exists.mp (List.isSome_idxOf?.mpr hm)
    exact ⟨v, slot, hv, j, hj, rfl⟩

theorem exists_slot (hc : op.Scopes c) {v : VariableId} (hv : v ∈ c.vars) (id : OperatorId) :
    ∃ slot, op.position? v = some slot ∧ slot ∈ (⟨id, pairsOf op c⟩ : Mapping).slots := by
  obtain ⟨slot, hslot⟩ := Option.isSome_iff_exists.mp (hc v hv)
  exact ⟨slot, hslot, mem_slots_iff.mpr ⟨v, Operator.position?_eq_some hslot, hv⟩⟩

theorem slots_lt_arity {id : OperatorId} {slot : Nat}
    (h : slot ∈ (⟨id, pairsOf op c⟩ : Mapping).slots) : slot < op.arity := by
  obtain ⟨v, hv, _⟩ := mem_slots_iff.mp h
  exact (List.getElem?_eq_some_iff.mp hv).1

end Mapping

/-! ## Bindings -/

namespace Binding

theorem lookup_zip {slots : List Nat} {constants : List ConstantId} {f : Nat → Option ConstantId}
    (h : List.Forall₂ (fun slot k ↦ f slot = some k) slots constants) {slot : Nat}
    (hs : slot ∈ slots) : (slots.zip constants).lookup slot = f slot := by
  induction h with
  | nil => simp at hs
  | @cons x k xs ks hk _ ih =>
    rw [List.zip_cons_cons, List.lookup_cons]
    by_cases hx : slot = x
    · subst hx
      simp [hk]
    · rw [beq_false_of_ne hx]
      exact ih ((List.mem_cons.mp hs).resolve_left hx)

/-- **Partial bindings ground alike.** A binding of the slots of a condition that agrees with full
arguments gives the atom that the arguments give. -/
theorem ground?_ofMapping {op : Operator} {c : Condition} (hc : op.Scopes c) {id : OperatorId}
    {args constants : List ConstantId}
    (h : List.Forall₂ (fun slot k ↦ args[slot]? = some k)
      (⟨id, Mapping.pairsOf op c⟩ : Mapping).slots constants) :
    (ofMapping ⟨id, Mapping.pairsOf op c⟩ constants).ground? op c =
      c.groundWith (op.argument? args) := by
  refine Condition.groundWith_congr fun v hv ↦ ?_
  obtain ⟨slot, hslot, hmem⟩ := Mapping.exists_slot hc hv id
  rw [Operator.argument?, hslot, Option.bind_some, Option.bind_some, constantAt?, ofMapping]
  exact lookup_zip h hmem

theorem exists_ground? {op : Operator} {c : Condition} (hc : op.Scopes c) {m : Mapping}
    {id : OperatorId} (hm : m = ⟨id, Mapping.pairsOf op c⟩) {constants : List ConstantId}
    (hlen : constants.length = m.slots.length) :
    ∃ a, (ofMapping m constants).ground? op c = some a := by
  subst hm
  refine Condition.exists_groundWith fun v hv ↦ ?_
  obtain ⟨slot, hslot, hmem⟩ := Mapping.exists_slot hc hv id
  rw [hslot, Option.bind_some, ← Option.isSome_iff_exists, constantAt?, List.lookup_isSome_iff]
  obtain ⟨i, hi, rfl⟩ := List.mem_iff_getElem.mp hmem
  have hc : i < constants.length := hlen ▸ hi
  refine ⟨(_, constants[i]), ?_, beq_self_eq_true _⟩
  exact List.mem_of_getElem? (List.getElem?_zip_eq_some.mpr
    ⟨List.getElem?_eq_getElem hi, List.getElem?_eq_getElem hc⟩)

end Binding

end LiftedPlanning
