import LiftedPlanning.Proofs.Layout
import LiftedPlanning.Proofs.Problem.Construction

/-!
# Problems and their histories

A problem comes about by operations, one after the other, some of which may fail. What holds of all
problems follows from what one successful operation does: a declaration enters a new name at the end
of its catalog and takes the next handle, the parameters of a new operator are the next variables,
and what is demanded, initial or a goal was checked before it was added.
-/

namespace LiftedPlanning.Problem

open Fallible (Meets)

variable {p q : Problem} {name : String}

/-! ## Successful operations -/

theorem addType_eq_ok_iff {supertypes : List String} {t : TypeId} :
    p.addType name supertypes = .ok (t, q) ↔ ∃ ts, p.typesOf supertypes = .ok ts ∧
      ∃ types, p.types.define name ts = .ok types ∧
        (⟨p.types.size⟩, { p with types }) = (t, q) := by
  simp only [addType, Fallible.bind_eq_ok_iff, Fallible.mapError_eq_ok_iff, pure, Except.pure,
    Except.ok.injEq]

theorem addConstant_eq_ok_iff {type : String} {c : ConstantId} :
    p.addConstant name type = .ok (c, q) ↔ ∃ t, p.types.typeOf type = .ok t ∧
      ∃ constants, p.constants.insert name t = .ok constants ∧
        (⟨p.constants.size⟩, { p with constants }) = (c, q) := by
  simp only [addConstant, Fallible.bind_eq_ok_iff, Fallible.mapError_eq_ok_iff, pure, Except.pure,
    Except.ok.injEq]

theorem addPredicate_eq_ok_iff {signature : List String} {predicate : PredicateId} :
    p.addPredicate name signature = .ok (predicate, q) ↔ ∃ ts, p.typesOf signature = .ok ts ∧
      ∃ predicates, p.predicates.insert name ts = .ok predicates ∧
        (⟨p.predicates.size⟩, { p with predicates }) = (predicate, q) := by
  simp only [addPredicate, Fallible.bind_eq_ok_iff, Fallible.mapError_eq_ok_iff, pure, Except.pure,
    Except.ok.injEq]

/-- The next `n` variables of a problem. -/
def nextVariables (p : Problem) (n : Nat) : List VariableId :=
  (List.range n).map fun i ↦ ⟨p.parameters.length + i⟩

theorem addOperator_eq_ok_iff {parameters : List (String × String)} {op : OperatorId} :
    p.addOperator name parameters = .ok (op, q) ↔
      ∃ typed, p.typedParameters [] parameters = .ok typed ∧
        ∃ operators, p.operators.insert name { parameters := p.nextVariables typed.length } =
            .ok operators ∧
          (⟨p.operators.size⟩, { p with operators, parameters := p.parameters ++ typed }) =
            (op, q) := by
  simp only [addOperator, nextVariables, Fallible.bind_eq_ok_iff, Fallible.mapError_eq_ok_iff, pure,
    Except.pure, Except.ok.injEq]

theorem typedParameters_cons_eq_ok {earlier : List String} {parameter : String × String}
    {rest : List (String × String)} {typed : List (String × TypeId)}
    (h : p.typedParameters earlier (parameter :: rest) = .ok typed) :
    parameter.1 ∉ earlier ∧ ∃ t typed',
      (p.types.typeOf parameter.2).mapError ProblemError.naming = .ok t ∧
      p.typedParameters (earlier ++ [parameter.1]) rest = .ok typed' ∧
      typed = (parameter.1, t) :: typed' := by
  rw [typedParameters, lookUpParameters] at h
  split at h
  · cases h
  · rename_i hnew
    obtain ⟨t, ht, h⟩ := Fallible.bind_eq_ok_iff.mp h
    obtain ⟨typed', htyped, h⟩ := Fallible.bind_eq_ok_iff.mp h
    exact ⟨hnew, t, typed', ht, htyped, (Except.ok.inj h).symm⟩

theorem names_typedParameters {earlier : List String} {parameters : List (String × String)}
    {typed : List (String × TypeId)} (h : p.typedParameters earlier parameters = .ok typed) :
    (typed.map (·.1)).Nodup ∧ ∀ entry ∈ typed, entry.1 ∉ earlier := by
  induction parameters generalizing earlier typed with
  | nil =>
    obtain rfl := Except.ok.inj h
    exact ⟨List.nodup_nil, List.forall_mem_nil _⟩
  | cons parameter rest ih =>
    obtain ⟨hnew, t, typed', _, htyped, rfl⟩ := typedParameters_cons_eq_ok h
    obtain ⟨hnodup, hearlier⟩ := ih htyped
    simp only [List.mem_append, List.mem_singleton, not_or] at hearlier
    rw [List.map_cons, List.nodup_cons, List.forall_mem_cons]
    refine ⟨⟨?_, hnodup⟩, hnew, fun entry he ↦ (hearlier entry he).1⟩
    rw [List.mem_map]
    rintro ⟨entry, he, heq⟩
    exact (hearlier entry he).2 heq

theorem map_fst_typedParameters {earlier : List String} {parameters : List (String × String)}
    {typed : List (String × TypeId)} (h : p.typedParameters earlier parameters = .ok typed) :
    typed.map (·.1) = parameters.map (·.1) := by
  induction parameters generalizing earlier typed with
  | nil =>
    obtain rfl := Except.ok.inj h
    rfl
  | cons parameter rest ih =>
    obtain ⟨_, t, typed', _, htyped, rfl⟩ := typedParameters_cons_eq_ok h
    rw [List.map_cons, List.map_cons, ih htyped]

theorem variableName_of_prefix (h : p.parameters <+: q.parameters) {v : VariableId}
    (hv : v.index < p.parameters.length) : q.variableName v = p.variableName v := by
  obtain ⟨rest, hrest⟩ := h
  rw [variableName, variableName, ← hrest, List.getElem?_append_left hv]

theorem map_variableName_nextVariables {typed : List (String × TypeId)}
    (h : q.parameters = p.parameters ++ typed) :
    (p.nextVariables typed.length).map q.variableName = typed.map (·.1) := by
  refine List.ext_getElem (by simp [nextVariables]) fun i hi hi' ↦ ?_
  have hlt : i < typed.length := by simpa [nextVariables] using hi
  simp only [nextVariables, List.getElem_map, List.getElem_range, variableName, h]
  rw [List.getElem?_append_right (Nat.le_add_right _ _), Nat.add_sub_cancel_left,
    List.getElem?_eq_getElem hlt]
  rfl

theorem addFormula_eq_ok_iff {role : Role} {op : OperatorId} {f : Formula} :
    p.addFormula role op f = .ok q ↔ op.index < p.operators.size ∧
      p.checkFormula f = .ok () ∧ p.demand role op f = q := by
  rw [addFormula]
  split
  · rename_i hnone
    have hop : ¬op.index < p.operators.size := fun h ↦ by
      obtain ⟨name, hname⟩ := Catalog.exists_name?_iff.mpr h
      rw [hnone] at hname
      cases hname
    simp [hop]
  · rename_i name hname
    rw [and_iff_right (Catalog.exists_name?_iff.mp ⟨name, hname⟩), Fallible.check_bind_eq_ok_iff,
      Fallible.mapError_eq_ok_iff]
    cases role <;> simp only [pure, Except.pure, Except.ok.injEq] <;> rfl

theorem addInitialAtom_eq_ok_iff {c : Condition} {new : Bool} :
    p.addInitialAtom c = .ok (new, q) ↔ p.checkCondition c = .ok () ∧ c.negated = false ∧
      ∃ a, c.groundAtom? = some a ∧
        (if a ∈ p.init then (false, p) else (true, { p with init := p.init ++ [a] })) =
          (new, q) := by
  rw [addInitialAtom, Fallible.check_bind_eq_ok_iff]
  cases c.negated <;> cases c.groundAtom? with
  | none => simp [bind, Except.bind, throw, throwThe, MonadExceptOf.throw]
  | some a =>
    by_cases ha : a ∈ p.init <;>
      simp [ha, bind, Except.bind, throw, throwThe, MonadExceptOf.throw, pure, Except.pure]

theorem addGoal_eq_ok_iff {c : Condition} :
    p.addGoal c = .ok q ↔ p.checkCondition c = .ok () ∧ c.isGround = true ∧
      { p with goal := p.goal ++ [c] } = q := by
  rw [addGoal, Fallible.check_bind_eq_ok_iff]
  cases c.isGround <;> simp [throw, throwThe, MonadExceptOf.throw, pure, Except.pure]

/-! ## Consistency -/

/-- What holds of a problem at all times: names and handles of each kind determine each other, the
parameters of the operators are the variables of the problem in order, those of one operator have
different names, and no atom is initial twice. -/
structure Consistent (p : Problem) : Prop extends WellFormed p where
  typeNames : p.types.Indexed
  constantNames : p.constants.Indexed
  predicateNames : p.predicates.Indexed
  operatorNames : p.operators.Indexed
  parameterOrder : p.operators.values.flatMap (·.parameters) = Handle.first p.parameters.length
  parameterNames : ∀ op schema, p.operator? op = some schema →
    (schema.parameters.map p.variableName).Nodup
  atoms : p.init.Nodup

theorem consistent_empty : empty.Consistent where
  toWellFormed := wellFormed_empty
  typeNames := .of_nodup List.nodup_nil
  constantNames := .of_nodup List.nodup_nil
  predicateNames := .of_nodup List.nodup_nil
  operatorNames := .of_nodup List.nodup_nil
  parameterOrder := rfl
  parameterNames _ _ h := by simp [empty, operator?, Catalog.value?] at h
  atoms := List.nodup_nil

namespace Consistent

theorem addType (h : p.Consistent) {supertypes : List String} {t : TypeId}
    (hq : p.addType name supertypes = .ok (t, q)) : q.Consistent := by
  have hwell := ((addType_meets h.toWellFormed supertypes).of_ok hq).wellFormed
  obtain ⟨ts, _, types, hdefine, heq⟩ := addType_eq_ok_iff.mp hq
  obtain ⟨_, hnew, rfl⟩ := TypeHierarchy.define_eq_ok_iff.mp hdefine
  obtain ⟨rfl, rfl⟩ := Prod.mk.inj heq
  exact { h with
    toWellFormed := hwell
    typeNames := h.typeNames.insert (Catalog.insert_eq_ok_iff.mpr ⟨hnew, rfl⟩) }

theorem addConstant (h : p.Consistent) {type : String} {c : ConstantId}
    (hq : p.addConstant name type = .ok (c, q)) : q.Consistent := by
  have hwell := ((addConstant_meets h.toWellFormed type).of_ok hq).wellFormed
  obtain ⟨t, _, constants, hinsert, heq⟩ := addConstant_eq_ok_iff.mp hq
  obtain ⟨rfl, rfl⟩ := Prod.mk.inj heq
  exact { h with
    toWellFormed := hwell
    constantNames := h.constantNames.insert hinsert }

theorem addPredicate (h : p.Consistent) {signature : List String} {predicate : PredicateId}
    (hq : p.addPredicate name signature = .ok (predicate, q)) : q.Consistent := by
  have hwell := ((addPredicate_meets h.toWellFormed signature).of_ok hq).wellFormed
  obtain ⟨ts, _, predicates, hinsert, heq⟩ := addPredicate_eq_ok_iff.mp hq
  obtain ⟨rfl, rfl⟩ := Prod.mk.inj heq
  exact { h with
    toWellFormed := hwell
    predicateNames := h.predicateNames.insert hinsert }

theorem addOperator (h : p.Consistent) {parameters : List (String × String)} {op : OperatorId}
    (hq : p.addOperator name parameters = .ok (op, q)) : q.Consistent := by
  have hwell := ((addOperator_meets h.toWellFormed parameters).of_ok hq).wellFormed
  obtain ⟨typed, htyped, operators, hinsert, heq⟩ := addOperator_eq_ok_iff.mp hq
  obtain ⟨rfl, rfl⟩ := Prod.mk.inj heq
  refine { h with
    toWellFormed := hwell
    operatorNames := h.operatorNames.insert hinsert
    parameterOrder := ?_
    parameterNames := ?_ }
  · obtain ⟨_, rfl⟩ := Catalog.insert_eq_ok_iff.mp hinsert
    rw [Catalog.values_concat, List.flatMap_append, h.parameterOrder, List.length_append,
      Handle.first, Handle.first, List.range_add, List.map_append, List.map_map,
      List.flatMap_singleton]
    rfl
  · obtain ⟨_, rfl⟩ := Catalog.insert_eq_ok_iff.mp hinsert
    intro op schema hop
    rcases Catalog.value?_concat.mp hop with hold | ⟨_, rfl⟩
    · rw [List.map_congr_left fun v hv ↦ variableName_of_prefix (List.prefix_append _ _)
        ((h.operators op schema hold).parameters v hv)]
      exact h.parameterNames op schema hold
    · rw [map_variableName_nextVariables rfl]
      exact (names_typedParameters htyped).1

theorem demand (h : p.Consistent) {role : Role} {op : OperatorId} {f : Formula}
    (hf : ∀ c ∈ f.conditions, p.checkCondition c = .ok ()) : (p.demand role op f).Consistent := by
  refine { h with
    toWellFormed := h.toWellFormed.demand hf
    operatorNames := h.operatorNames.update (·.demand role f)
    parameterOrder := ?_
    parameterNames := fun op' after hop ↦ ?_ }
  · rw [Catalog.values, List.flatMap_map, List.flatMap_def, Problem.demand,
      Catalog.entries_update_map fun _ ↦ Operator.parameters_demand, ← List.flatMap_def,
      ← List.flatMap_map]
    exact h.parameterOrder
  · rcases exists_of_operator?_demand hop with hold | ⟨before, _, hbefore, rfl⟩
    · exact h.parameterNames op' after hold
    · rw [Operator.parameters_demand]
      exact h.parameterNames op before hbefore

theorem addFormula (h : p.Consistent) {role : Role} {op : OperatorId} {f : Formula}
    (hq : p.addFormula role op f = .ok q) : q.Consistent := by
  obtain ⟨_, hf, rfl⟩ := addFormula_eq_ok_iff.mp hq
  exact h.demand (checkFormula_eq_ok_iff.mp hf)

theorem addInitialAtom (h : p.Consistent) {c : Condition} {new : Bool}
    (hq : p.addInitialAtom c = .ok (new, q)) : q.Consistent := by
  obtain ⟨hcheck, _, a, _, heq⟩ := addInitialAtom_eq_ok_iff.mp hq
  have hwell :=
    ((addInitialAtom_meets h.toWellFormed (declares_of_checkCondition hcheck)).of_ok hq).wellFormed
  split at heq
  · obtain ⟨_, rfl⟩ := Prod.mk.inj heq
    exact h
  · rename_i ha
    obtain ⟨_, rfl⟩ := Prod.mk.inj heq
    exact { h with
      toWellFormed := hwell
      atoms := h.atoms.append (List.nodup_singleton _) (List.disjoint_singleton.mpr ha) }

theorem addGoal (h : p.Consistent) {c : Condition} (hq : p.addGoal c = .ok q) : q.Consistent := by
  obtain ⟨hcheck, _, rfl⟩ := addGoal_eq_ok_iff.mp hq
  have hwell :=
    ((addGoal_meets h.toWellFormed (declares_of_checkCondition hcheck)).of_ok hq).wellFormed
  exact { h with
    toWellFormed := hwell }

end Consistent

/-! ## Histories -/

/-- An operation on a problem with its arguments. -/
inductive Edit
  | type (name : String) (supertypes : List String)
  | constant (name type : String)
  | predicate (name : String) (signature : List String)
  | operator (name : String) (parameters : List (String × String))
  | precondition (op : OperatorId) (f : Formula)
  | effect (op : OperatorId) (f : Formula)
  | initial (c : Condition)
  | goal (c : Condition)

/-- The answer to an operation: the handle of what was declared, or whether an initial atom is new.
-/
inductive Answer
  | type (t : TypeId)
  | constant (c : ConstantId)
  | predicate (predicate : PredicateId)
  | operator (op : OperatorId)
  | initial (new : Bool)
  | done

/-- The answer to an operation and the problem after it. -/
def perform (p : Problem) : Edit → Except ProblemError (Answer × Problem)
  | .type name supertypes => (p.addType name supertypes).map (.map .type id)
  | .constant name type => (p.addConstant name type).map (.map .constant id)
  | .predicate name signature => (p.addPredicate name signature).map (.map .predicate id)
  | .operator name parameters => (p.addOperator name parameters).map (.map .operator id)
  | .precondition op f => (p.addPrecondition op f).map (.done, ·)
  | .effect op f => (p.addEffect op f).map (.done, ·)
  | .initial c => (p.addInitialAtom c).map (.map .initial id)
  | .goal c => (p.addGoal c).map (.done, ·)

/-- The handles in the arguments of an operation are handles of the problem. -/
def Permits (p : Problem) : Edit → Prop
  | .precondition op f | .effect op f =>
    op.index < p.operators.size ∧ ∀ c ∈ f.conditions, p.declares c = true
  | .initial c | .goal c => p.declares c = true
  | _ => True

instance (p : Problem) : (edit : Edit) → Decidable (p.Permits edit)
  | .type _ _ | .constant _ _ | .predicate _ _ | .operator _ _ => inferInstanceAs (Decidable True)
  | .precondition _ _ | .effect _ _ => inferInstanceAs (Decidable (_ ∧ _))
  | .initial _ | .goal _ => inferInstanceAs (Decidable (_ = true))

/-- What was entered is in the problem: what was declared is found by its name at the answered
handle, which is the last of its kind, and the conditions are where they were added. -/
def Records (q : Problem) : Edit → Answer → Prop
  | .type name _, .type t => q.types.find name = .ok t.index ∧ t.index + 1 = q.types.size
  | .constant name _, .constant c => q.constants.find name = .ok c.index ∧
      c.index + 1 = q.constants.size
  | .predicate name _, .predicate predicate => q.predicates.find name = .ok predicate.index ∧
      predicate.index + 1 = q.predicates.size
  | .operator name _, .operator op => q.operators.find name = .ok op.index ∧
      op.index + 1 = q.operators.size
  | .precondition op f, .done => ∃ schema, q.operator? op = some schema ∧
      f.conditions ⊆ schema.precondition.conditions
  | .effect op f, .done => ∃ schema, q.operator? op = some schema ∧
      f.conditions ⊆ schema.effect.conditions
  | .initial c, .initial _ => ∃ a ∈ q.init, c.groundAtom? = some a
  | .goal c, .done => c ∈ q.goal
  | _, _ => False

variable {edit : Edit} {answer : Answer}

theorem Consistent.perform (hp : p.Consistent) (h : p.perform edit = .ok (answer, q)) :
    q.Consistent := by
  cases edit <;> obtain ⟨r, hr, heq⟩ := Fallible.map_eq_ok_iff.mp h <;>
    obtain ⟨rfl, rfl⟩ := Prod.mk.inj heq
  case type => exact hp.addType hr
  case constant => exact hp.addConstant hr
  case predicate => exact hp.addPredicate hr
  case operator => exact hp.addOperator hr
  case precondition => exact hp.addFormula hr
  case effect => exact hp.addFormula hr
  case initial => exact hp.addInitialAtom hr
  case goal => exact hp.addGoal hr

/-- The formula that an operation demands of an operator in a role, if it does. -/
def Edit.formula? (role : Role) (op : OperatorId) : Edit → Option Formula
  | .precondition op' f => if role = .precondition ∧ op' = op then some f else none
  | .effect op' f => if role = .effect ∧ op' = op then some f else none
  | _ => none

theorem keeps_of_perform (hp : p.WellFormed) (hedit : ∀ role op, edit.formula? role op = none)
    (h : p.perform edit = .ok (answer, q)) : p.Keeps q := by
  cases edit <;> obtain ⟨r, hr, heq⟩ := Fallible.map_eq_ok_iff.mp h <;>
    obtain ⟨rfl, rfl⟩ := Prod.mk.inj heq
  case type => exact ((addType_meets hp _).of_ok hr).keeps
  case constant => exact ((addConstant_meets hp _).of_ok hr).keeps
  case predicate => exact ((addPredicate_meets hp _).of_ok hr).keeps
  case operator => exact ((addOperator_meets hp _).of_ok hr).keeps
  case precondition op f => simpa [Edit.formula?] using hedit .precondition op
  case effect op f => simpa [Edit.formula?] using hedit .effect op
  case initial =>
    obtain ⟨hcheck, _⟩ := addInitialAtom_eq_ok_iff.mp hr
    exact ((addInitialAtom_meets hp (declares_of_checkCondition hcheck)).of_ok hr).keeps
  case goal =>
    obtain ⟨hcheck, _⟩ := addGoal_eq_ok_iff.mp hr
    exact ((addGoal_meets hp (declares_of_checkCondition hcheck)).of_ok hr).keeps

/-- Problems that come about by successful operations on known handles. -/
inductive IsBuilt : Problem → Prop
  | empty : IsBuilt empty
  | step {p q : Problem} {edit : Edit} {answer : Answer} :
    IsBuilt p → p.Permits edit → p.perform edit = .ok (answer, q) → IsBuilt q

theorem IsBuilt.consistent (h : p.IsBuilt) : p.Consistent := by
  induction h with
  | empty => exact consistent_empty
  | step _ _ hq ih => exact ih.perform hq

/-! ## Operations that may fail -/

/-- The problem after an operation, which leaves it alone if it fails. -/
def after (p : Problem) (edit : Edit) : Problem :=
  match p.perform edit with
  | .ok (_, q) => q
  | .error _ => p

/-- Every operation in turn has handles that the problem has given out by then. -/
def PermitsAll (p : Problem) : List Edit → Prop
  | [] => True
  | edit :: edits => p.Permits edit ∧ (p.after edit).PermitsAll edits

instance decidablePermitsAll : (p : Problem) → (edits : List Edit) → Decidable (p.PermitsAll edits)
  | _, [] => inferInstanceAs (Decidable True)
  | p, edit :: edits => @instDecidableAnd _ _ inferInstance (decidablePermitsAll (p.after edit) edits)

theorem IsBuilt.after (h : p.IsBuilt) (hedit : p.Permits edit) : (p.after edit).IsBuilt := by
  rw [Problem.after]
  cases hq : p.perform edit with
  | error err => exact h
  | ok r => exact h.step hedit hq

theorem IsBuilt.foldl_after {edits : List Edit} (h : p.IsBuilt) (hedits : p.PermitsAll edits) :
    (edits.foldl Problem.after p).IsBuilt := by
  induction edits generalizing p with
  | nil => exact h
  | cons edit edits ih => exact ih (h.after hedits.1) hedits.2

/-- Operations on a harbour: a constant is declared twice, and an operator has two parameters of one
name. -/
def harbourEdits : List Edit :=
  [.type "place" [], .type "dock" ["place"], .constant "a" "dock", .constant "a" "place",
    .predicate "at" ["place"], .operator "sail" [("from", "place"), ("to", "dock")],
    .operator "moor" [("x", "dock"), ("x", "dock")],
    .precondition ⟨0⟩ (.literal (.positive ⟨0⟩ [.param ⟨0⟩])),
    .effect ⟨0⟩ (.ofConditions [.negative ⟨0⟩ [.param ⟨0⟩], .positive ⟨0⟩ [.param ⟨1⟩]]),
    .initial (.positive ⟨0⟩ [.const ⟨0⟩])]

theorem permitsAll_harbourEdits : empty.PermitsAll harbourEdits := by
  decide +kernel

/-- The problem after these operations. -/
def harbour : Problem :=
  harbourEdits.foldl after empty

theorem isBuilt_harbour : harbour.IsBuilt :=
  IsBuilt.empty.foldl_after permitsAll_harbourEdits

end LiftedPlanning.Problem
