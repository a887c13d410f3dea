import LiftedPlanning.Problem.Validation
import LiftedPlanning.Proofs.Formula
import LiftedPlanning.Proofs.Mapping
import LiftedPlanning.Proofs.TypeHierarchy

/-!
# Well-formed problems

Conditions are checked when they arrive, against what was declared by then. The checks still hold in
the end: declarations are only ever added, and a check looks at nothing but the types of that moment
and their supertypes. A problem whose conditions were all checked is valid as soon as the variables
of every operator's conditions are parameters of the operator.
-/

namespace LiftedPlanning.Problem

open Fallible (Meets)

variable {p q : Problem} {c : Condition} {t : Term} {type : TypeId}

/-! ## Checked conditions -/

/-- A term stands for something of a type that is related to the expected one. -/
def Suits (p : Problem) (t : Term) (expected : TypeId) : Prop :=
  ∃ actual, p.termType? t = some actual ∧ p.types.related expected actual = true

theorem checkArguments_eq_ok_iff {predicate : PredicateId} {args : List Term}
    {signature : List TypeId} (hlen : signature.length = args.length) (i : Nat) :
    p.checkArguments predicate i args signature = .ok () ↔
      List.Forall₂ p.Suits args signature := by
  induction args generalizing signature i with
  | nil =>
    rw [List.eq_nil_of_length_eq_zero hlen]
    simp [checkArguments]
  | cons t args ih =>
    obtain ⟨expected, signature, rfl⟩ := List.exists_cons_of_length_eq_add_one hlen
    have hlen : signature.length = args.length := Nat.succ.inj hlen
    rw [checkArguments, List.forall₂_cons, Suits]
    split
    · rename_i hnone
      simp [hnone]
    · rename_i actual hactual
      simp only [hactual, Option.some.injEq, exists_eq_left']
      split
      · rename_i hrel
        rw [ih hlen, and_iff_right hrel]
      · rename_i hrel
        simp [hrel]

theorem checkCondition_eq_ok_iff :
    p.checkCondition c = .ok () ↔ ∃ signature, p.signature? c.predicate = some signature ∧
      List.Forall₂ p.Suits c.args signature := by
  rw [checkCondition]
  split
  · rename_i hnone
    simp [hnone]
  · rename_i signature hsignature
    simp only [hsignature, Option.some.injEq, exists_eq_left']
    split
    · rename_i hlen
      exact checkArguments_eq_ok_iff hlen 0
    · rename_i hlen
      exact ⟨nofun, fun h ↦ absurd h.length_eq.symm hlen⟩

theorem checkFormula_eq_ok_iff {f : Formula} :
    p.checkFormula f = .ok () ↔ ∀ c ∈ f.conditions, p.checkCondition c = .ok () :=
  Fallible.forM_eq_ok_iff

theorem declares_of_checkCondition (h : p.checkCondition c = .ok ()) : p.declares c = true := by
  obtain ⟨signature, hsignature, hargs⟩ := checkCondition_eq_ok_iff.mp h
  rw [declares, hsignature, Option.isSome_some, Bool.true_and, List.all_eq_true]
  intro t ht
  obtain ⟨_, _, actual, hactual, _⟩ := Fallible.exists_right hargs ht
  rw [hactual, Option.isSome_some]

/-- What was declared can be checked without coming upon an unknown handle. -/
theorem checkArguments_meets {predicate : PredicateId} {args : List Term} {signature : List TypeId}
    (hargs : ∀ t ∈ args, (p.termType? t).isSome = true) (i : Nat) :
    Meets (p.checkArguments predicate i args signature) (fun _ ↦ True)
      (·.isUnknownHandle = false) := by
  induction args generalizing signature i with
  | nil => trivial
  | cons t args ih =>
    rw [List.forall_mem_cons] at hargs
    cases signature with
    | nil => trivial
    | cons expected signature =>
      obtain ⟨actual, hactual⟩ := Option.isSome_iff_exists.mp hargs.1
      rw [checkArguments, hactual]
      dsimp only
      split
      · exact ih hargs.2 (i + 1)
      · rfl

theorem checkCondition_meets (h : p.declares c = true) :
    Meets (p.checkCondition c) (fun _ ↦ p.checkCondition c = .ok ())
      (·.isUnknownHandle = false) := by
  rw [declares, Bool.and_eq_true, List.all_eq_true] at h
  obtain ⟨signature, hsignature⟩ := Option.isSome_iff_exists.mp h.1
  suffices Meets (p.checkCondition c) (fun _ ↦ True) (·.isUnknownHandle = false) from
    this.and_eq.mono fun _ hok ↦ hok.1
  rw [checkCondition, hsignature]
  dsimp only
  split
  · exact checkArguments_meets h.2 0
  · rfl

/-! ## Growth -/

/-- What is declared in `p` is declared in `q` at the same place. -/
structure Extends (p q : Problem) : Prop where
  types : p.types.entries <+: q.types.entries
  constants : p.constants.entries <+: q.constants.entries
  predicates : p.predicates.entries <+: q.predicates.entries
  parameters : p.parameters <+: q.parameters

theorem Extends.termType? (h : p.Extends q) (ht : p.termType? t = some type) :
    q.termType? t = some type := by
  cases t with
  | const c => exact Catalog.value?_of_prefix h.constants ht
  | param v =>
    obtain ⟨entry, he, rfl⟩ := Option.map_eq_some_iff.mp ht
    obtain ⟨hi, rfl⟩ := List.getElem?_eq_some_iff.mp he
    obtain ⟨rest, hrest⟩ := h.parameters
    rw [Problem.termType?, variableType?, ← hrest, List.getElem?_append_left hi, he,
      Option.map_some]

/-- All the types that a problem refers to are defined, the supertypes of a type before it. -/
structure Typed (p : Problem) : Prop where
  links : p.types.Descends
  constants : ∀ c type, p.constantType? c = some type → type.index < p.types.size
  predicates : ∀ predicate signature, p.signature? predicate = some signature →
    ∀ type ∈ signature, type.index < p.types.size
  parameters : ∀ entry ∈ p.parameters, entry.2.index < p.types.size

theorem Typed.termType (h : p.Typed) (ht : p.termType? t = some type) :
    type.index < p.types.size := by
  cases t with
  | const c => exact h.constants c type ht
  | param v =>
    obtain ⟨entry, he, rfl⟩ := Option.map_eq_some_iff.mp ht
    exact h.parameters entry (List.mem_of_getElem? he)

/-- **Checks last.** A condition that was checked stays so. -/
theorem Extends.checkCondition (h : p.Extends q) (hp : p.Typed)
    (hc : p.checkCondition c = .ok ()) : q.checkCondition c = .ok () := by
  obtain ⟨signature, hsignature, hargs⟩ := checkCondition_eq_ok_iff.mp hc
  refine checkCondition_eq_ok_iff.mpr
    ⟨signature, Catalog.value?_of_prefix h.predicates hsignature, ?_⟩
  have hdefined := hp.predicates c.predicate signature hsignature
  have hsuits : ∀ expected ∈ signature, ∀ t, p.Suits t expected → q.Suits t expected := by
    rintro expected hexpected t ⟨actual, hactual, hrel⟩
    refine ⟨actual, h.termType? hactual, ?_⟩
    rw [TypeHierarchy.related_of_prefix h.types (hdefined expected hexpected)
      (hp.termType hactual)]
    exact hrel
  exact (Fallible.forall₂_imp_left hsuits hargs.flip).flip

/-! ## Well-formed problems -/

/-- The parameters of an operator are declared, and its conditions are checked. -/
structure Checks (p : Problem) (schema : Operator) : Prop where
  parameters : ∀ v ∈ schema.parameters, v.index < p.parameters.length
  conditions : ∀ role, ∀ c ∈ (schema.formula role).conditions, p.checkCondition c = .ok ()

theorem Checks.isSome_variableType? {schema : Operator} (h : p.Checks schema) {v : VariableId}
    (hv : v ∈ schema.parameters) : (p.variableType? v).isSome = true := by
  rw [variableType?, List.getElem?_eq_getElem (h.parameters v hv), Option.map_some,
    Option.isSome_some]

theorem Extends.checks (h : p.Extends q) (hp : p.Typed) {schema : Operator}
    (hs : p.Checks schema) : q.Checks schema where
  parameters v hv := Nat.lt_of_lt_of_le (hs.parameters v hv) h.parameters.length_le
  conditions role c hc := h.checkCondition hp (hs.conditions role c hc)

/-- Everything was checked when it was entered. -/
structure WellFormed (p : Problem) : Prop extends Typed p where
  operators : ∀ op schema, p.operator? op = some schema → p.Checks schema
  init : ∀ a ∈ p.init, p.checkCondition a.toCondition = .ok ()
  goal : ∀ c ∈ p.goal, p.checkCondition c = .ok () ∧ c.isGround = true

theorem wellFormed_empty : empty.WellFormed where
  links _ _ h := by
    simp [empty, TypeHierarchy.empty, TypeHierarchy.directSupertypes?, Catalog.value?] at h
  constants _ _ h := by simp [empty, constantType?, Catalog.value?] at h
  predicates _ _ h := by simp [empty, signature?, Catalog.value?] at h
  parameters := List.forall_mem_nil _
  operators _ _ h := by simp [empty, operator?, Catalog.value?] at h
  init := List.forall_mem_nil _
  goal := List.forall_mem_nil _

/-- After a declaration only what is new has to be looked at. -/
theorem WellFormed.of_extends (hp : p.WellFormed) (h : p.Extends q) (hq : q.Typed)
    (hops : ∀ op schema, q.operator? op = some schema →
      p.operator? op = some schema ∨ q.Checks schema)
    (hinit : ∀ a ∈ q.init, a ∈ p.init ∨ q.checkCondition a.toCondition = .ok ())
    (hgoal : ∀ c ∈ q.goal, c ∈ p.goal ∨ q.checkCondition c = .ok () ∧ c.isGround = true) :
    q.WellFormed where
  toTyped := hq
  operators op schema hop :=
    (hops op schema hop).elim (fun hold ↦ h.checks hp.toTyped (hp.operators op schema hold)) id
  init a ha := (hinit a ha).elim (fun hold ↦ h.checkCondition hp.toTyped (hp.init a hold)) id
  goal c hc := (hgoal c hc).elim
    (fun hold ↦ (hp.goal c hold).imp_left (h.checkCondition hp.toTyped)) id

/-! ## Validity -/

/-- The variables of an operator's conditions are parameters of the operator. -/
def Scoped (p : Problem) : Prop :=
  ∀ op schema, p.operator? op = some schema →
    ∀ role, ∀ c ∈ (schema.formula role).conditions, schema.Scopes c

theorem checkScope_eq_ok_iff {schema : Operator} :
    p.checkScope schema c = .ok () ↔ schema.Scopes c := by
  have hscopes : schema.Scopes c ↔
      (c.vars.find? fun v ↦ (schema.position? v).isNone) = none := by
    simp [Operator.Scopes, List.find?_eq_none, Option.isSome_iff_ne_none]
  rw [checkScope, hscopes]
  cases c.vars.find? fun v ↦ (schema.position? v).isNone <;> simp

theorem validateOperator_eq_ok_iff {schema : Operator} :
    p.validateOperator schema = .ok () ↔ ∀ role, ∀ c ∈ (schema.formula role).conditions,
      p.checkCondition c = .ok () ∧ schema.Scopes c := by
  rw [validateOperator, Fallible.forM_eq_ok_iff, Role.forall_iff, List.forall_mem_cons,
    List.forall_mem_singleton]
  simp only [Fallible.check_bind_eq_ok_iff, checkFormula_eq_ok_iff, Fallible.forM_eq_ok_iff,
    checkScope_eq_ok_iff, Operator.formula, forall_and]

theorem validateGoal_eq_ok_iff :
    p.validateGoal c = .ok () ↔ p.checkCondition c = .ok () ∧ c.isGround = true := by
  rw [validateGoal, Fallible.check_bind_eq_ok_iff, Fallible.mapError_eq_ok_iff]
  cases c.isGround <;> simp [pure, Except.pure, throw, throwThe, MonadExceptOf.throw]

/-- **Well-formed problems are valid.** The scope of the variables is all that is left to check. -/
theorem WellFormed.validate_eq_ok_iff (h : p.WellFormed) : p.validate = .ok () ↔ p.Scoped := by
  have hops : (∀ entry ∈ p.operators.entries, p.validateOperator entry.2 = .ok ()) ↔ p.Scoped := by
    simp only [validateOperator_eq_ok_iff]
    constructor
    · intro hall op schema hop role c hc
      obtain ⟨entry, he, rfl⟩ := Option.map_eq_some_iff.mp hop
      exact (hall entry (List.mem_of_getElem? he) role c hc).2
    · intro hscoped entry hm role c hc
      obtain ⟨i, he⟩ := List.mem_iff_getElem?.mp hm
      have hop : p.operator? ⟨i⟩ = some entry.2 := by rw [operator?, Catalog.value?, he]; rfl
      exact ⟨(h.operators _ _ hop).conditions role c hc, hscoped _ _ hop role c hc⟩
  simp only [validate, Fallible.check_bind_eq_ok_iff, Fallible.forM_eq_ok_iff,
    Fallible.mapError_eq_ok_iff, hops, validateGoal_eq_ok_iff]
  exact ⟨fun hall ↦ hall.1, fun hscoped ↦ ⟨hscoped, h.init, h.goal⟩⟩

end LiftedPlanning.Problem
