import LiftedPlanning.Proofs.Handles
import LiftedPlanning.Proofs.NameTable
import LiftedPlanning.Proofs.Problem.History

/-!
# Problems in place

A problem that is edited in place keeps the names of each kind in a name table, what is stored with
them in a list beside it, and in an operator also its own handle and name. An operation looks names
up, makes its checks and then writes one table after the other; if it fails, the tables stay as they
are at that moment. Since no check comes after a write, a failure leaves everything as it was
before, and the tables never fall out of step: in place, each operation does what it does to a
problem as a value.
-/

namespace LiftedPlanning

variable {α : Type}

/-- What is being done when a formula is demanded of an operator. -/
def Role.adding : Role → String → Activity
  | .precondition => .addingPrecondition
  | .effect => .addingEffect

/-- An operator as it is stored, with its handle and its name. -/
structure StoredOperator extends Operator where
  id : OperatorId
  name : String

namespace Problem

/-! ## Tables -/

/-- A problem as tables side by side. -/
structure Tables where
  typeNames : NameTable := { kind := "type" }
  supertypes : List (List TypeId) := []
  constantNames : NameTable := { kind := "constant" }
  constantTypes : List TypeId := []
  predicateNames : NameTable := { kind := "predicate" }
  signatures : List (List TypeId) := []
  parameters : List (String × TypeId) := []
  operatorNames : NameTable := { kind := "operator" }
  operators : List StoredOperator := []
  init : List GroundAtom := []
  goal : List Condition := []

namespace Tables

def typeOf (t : Tables) (name : String) : Except NameError TypeId :=
  (t.typeNames.find name).map Handle.mk

/-- The problem that tables show. -/
def problem (t : Tables) : Problem where
  types := ⟨⟨t.typeNames.kind, t.typeNames.names.zip t.supertypes⟩⟩
  constants := ⟨t.constantNames.kind, t.constantNames.names.zip t.constantTypes⟩
  predicates := ⟨t.predicateNames.kind, t.predicateNames.names.zip t.signatures⟩
  parameters := t.parameters
  operators := ⟨t.operatorNames.kind,
    t.operatorNames.names.zip (t.operators.map (·.toOperator))⟩
  init := t.init
  goal := t.goal

end Tables

/-! ## Operations -/

/-- Programs on tables that may fail midway. -/
abbrev InPlace := EStateM ProblemError Tables

namespace InPlace

/-- Goes on with a result, or fails. -/
def require (x : Except ProblemError α) : InPlace α :=
  match x with
  | .ok a => pure a
  | .error e => throw e

/-- Looks something up in the tables. -/
def inspect (look : Tables → Except ProblemError α) : InPlace α := do
  require (look (← get))

/-- Enters a name in one of the name tables and answers with its place. -/
def register (table : Tables → NameTable) (put : Tables → NameTable → Tables) (name : String)
    (failure : NameError → ProblemError) : InPlace Nat := do
  let (place, names) ← inspect fun t ↦ ((table t).register name).mapError failure
  modify fun t ↦ put t names
  return place

def addType (name : String) (supertypes : List String) : InPlace TypeId := do
  let supertypes ← inspect fun t ↦
    (lookUpTypes t.typeOf supertypes).mapError (.during (.definingType name))
  inspect fun t ↦ match supertypes.find? fun s ↦ t.supertypes.length ≤ s.index with
    | some s => .error (.hierarchy (.undefinedSupertype name s))
    | none => .ok ()
  let place ← register (·.typeNames) (fun t typeNames ↦ { t with typeNames }) name
    fun e ↦ .hierarchy (.naming e)
  modify fun t ↦ { t with supertypes := t.supertypes ++ [supertypes] }
  return ⟨place⟩

def addConstant (name type : String) : InPlace ConstantId := do
  let type ← inspect fun t ↦
    (t.typeOf type).mapError fun e ↦ .during (.definingConstant name) (.naming e)
  let place ← register (·.constantNames) (fun t constantNames ↦ { t with constantNames }) name
    .naming
  modify fun t ↦ { t with constantTypes := t.constantTypes ++ [type] }
  return ⟨place⟩

def addPredicate (name : String) (signature : List String) : InPlace PredicateId := do
  let signature ← inspect fun t ↦
    (lookUpTypes t.typeOf signature).mapError (.during (.definingPredicate name))
  let place ← register (·.predicateNames) (fun t predicateNames ↦ { t with predicateNames }) name
    .naming
  modify fun t ↦ { t with signatures := t.signatures ++ [signature] }
  return ⟨place⟩

def addOperator (name : String) (parameters : List (String × String)) : InPlace OperatorId := do
  let typed ← inspect fun t ↦
    (lookUpParameters t.typeOf [] parameters).mapError (.during (.definingOperator name))
  let place ← register (·.operatorNames) (fun t operatorNames ↦ { t with operatorNames }) name
    .naming
  let first := (← get).parameters.length
  modify fun t ↦ { t with parameters := t.parameters ++ typed }
  let own := (List.range typed.length).map fun i ↦ (⟨first + i⟩ : VariableId)
  let stored : StoredOperator := { id := ⟨place⟩, name, parameters := own }
  modify fun t ↦ { t with operators := t.operators ++ [stored] }
  return ⟨place⟩

/-- Demands a formula of an operator, in a role. A failure tells the name that is stored in the
operator. -/
def addFormula (role : Role) (op : OperatorId) (f : Formula) : InPlace Unit := do
  inspect fun t ↦ match t.operators[op.index]? with
    | some stored => (t.problem.checkFormula f).mapError (.during (role.adding stored.name))
    | none => .error .unknownHandle
  modify fun t ↦
    { t with
      operators := t.operators.modify op.index fun stored ↦
        { stored with toOperator := stored.toOperator.demand role f } }

def addInitialAtom (c : Condition) : InPlace Bool := do
  inspect fun t ↦ t.problem.checkCondition c
  if c.negated then
    throw .negativeInitialAtom
  match c.groundAtom? with
  | none => throw .openInitialAtom
  | some a =>
    if a ∈ (← get).init then
      return false
    else
      modify fun t ↦ { t with init := t.init ++ [a] }
      return true

def addGoal (c : Condition) : InPlace Unit := do
  inspect fun t ↦ t.problem.checkCondition c
  if c.isGround then
    modify fun t ↦ { t with goal := t.goal ++ [c] }
  else
    throw .openGoal

/-- An operation in place. -/
def perform : Edit → InPlace Answer
  | .type name supertypes => .type <$> addType name supertypes
  | .constant name type => .constant <$> addConstant name type
  | .predicate name signature => .predicate <$> addPredicate name signature
  | .operator name parameters => .operator <$> addOperator name parameters
  | .precondition op f => (fun _ ↦ .done) <$> addFormula .precondition op f
  | .effect op f => (fun _ ↦ .done) <$> addFormula .effect op f
  | .initial c => .initial <$> addInitialAtom c
  | .goal c => (fun _ ↦ .done) <$> addGoal c

end InPlace

/-! ## Agreement -/

/-- The operators of a catalog as they are stored. -/
def storedOperators (c : Catalog Operator) : List StoredOperator :=
  c.entries.zipIdx.map fun (entry, i) ↦ ⟨entry.2, ⟨i⟩, entry.1⟩

/-- Tables show a problem: the name tables show the names of its catalogs, the lists beside them
are what is stored there, and every operator has the handle and the name of its place. -/
structure Tables.Shows (t : Tables) (p : Problem) : Prop where
  typeNames : t.typeNames.Shows p.types.toCatalog
  supertypes : t.supertypes = p.types.values
  constantNames : t.constantNames.Shows p.constants
  constantTypes : t.constantTypes = p.constants.values
  predicateNames : t.predicateNames.Shows p.predicates
  signatures : t.signatures = p.predicates.values
  parameters : t.parameters = p.parameters
  operatorNames : t.operatorNames.Shows p.operators
  operators : t.operators = storedOperators p.operators
  init : t.init = p.init
  goal : t.goal = p.goal

/-- What a program in place comes to is what comes of the problem as a value: the same answer and
tables that show the new problem, or the same failure and the tables as they were. -/
def Tables.Settles (t : Tables) :
    EStateM.Result ProblemError Tables α → Except ProblemError (α × Problem) → Prop
  | .ok a t', .ok (b, q) => a = b ∧ t'.Shows q
  | .error e t', .error e' => e = e' ∧ t' = t
  | _, _ => False

theorem zip_names_values (c : Catalog α) : c.names.zip c.values = c.entries := by
  rw [Catalog.names, Catalog.values, List.zip_map', List.map_id']

theorem getElem?_storedOperators (c : Catalog Operator) (i : Nat) :
    (storedOperators c)[i]? = (c.entries[i]?).map fun entry ↦ ⟨entry.2, ⟨i⟩, entry.1⟩ := by
  rw [storedOperators, List.getElem?_map, List.getElem?_zipIdx, Nat.zero_add, Option.map_map]
  rfl

theorem map_storedOperators (c : Catalog Operator) :
    (storedOperators c).map (·.toOperator) = c.values := by
  refine List.ext_getElem? fun i ↦ ?_
  rw [List.getElem?_map, getElem?_storedOperators, Option.map_map, Catalog.values,
    List.getElem?_map]
  rfl

theorem storedOperators_insert {c d : Catalog Operator} {name : String} {schema : Operator}
    (h : c.insert name schema = .ok d) :
    storedOperators d = storedOperators c ++ [⟨schema, ⟨c.size⟩, name⟩] := by
  obtain ⟨_, rfl⟩ := Catalog.insert_eq_ok_iff.mp h
  rw [storedOperators, List.zipIdx_append, List.map_append, List.zipIdx_singleton, Nat.zero_add]
  rfl

/-- What is stored at a place changes, but not under which handle and name. -/
theorem storedOperators_update (c : Catalog Operator) (i : Nat) (f : Operator → Operator) :
    storedOperators (c.update i f) = (storedOperators c).modify i fun stored ↦
      { stored with toOperator := f stored.toOperator } := by
  refine List.ext_getElem? fun j ↦ ?_
  rw [List.getElem?_modify, getElem?_storedOperators, getElem?_storedOperators, Catalog.update,
    List.getElem?_modify]
  cases c.entries[j]? with
  | none => rfl
  | some entry => by_cases hj : i = j <;> simp [hj]

namespace Tables

variable {t : Tables} {p q : Problem}

theorem shows_empty : Shows {} empty where
  typeNames := NameTable.shows_empty _
  supertypes := rfl
  constantNames := NameTable.shows_empty _
  constantTypes := rfl
  predicateNames := NameTable.shows_empty _
  signatures := rfl
  parameters := rfl
  operatorNames := NameTable.shows_empty _
  operators := rfl
  init := rfl
  goal := rfl

namespace Shows

variable (h : t.Shows p)

include h

theorem typeOf_eq : t.typeOf = p.types.typeOf :=
  funext fun name ↦ congrArg (Except.map Handle.mk) (h.typeNames.find_eq name)

theorem problem_eq : t.problem = p := by
  simp only [problem, h.typeNames.kind, h.typeNames.names, h.supertypes, h.constantNames.kind,
    h.constantNames.names, h.constantTypes, h.predicateNames.kind, h.predicateNames.names,
    h.signatures, h.parameters, h.operatorNames.kind, h.operatorNames.names, h.operators, h.init,
    h.goal, map_storedOperators, zip_names_values]

theorem size_types : t.supertypes.length = p.types.size := by
  rw [h.supertypes, Catalog.values, List.length_map, Catalog.size]

end Shows

/-! ### Programs -/

theorem run_inspect_bind {β : Type} (look : Tables → Except ProblemError α) (rest : α → InPlace β)
    (t : Tables) : (InPlace.inspect look >>= rest).run t = match look t with
      | .ok a => (rest a).run t
      | .error e => .error e t := by
  rw [InPlace.inspect, EStateM.run_bind, EStateM.run_bind, EStateM.run_get]
  cases h : look t <;> simp only [h] <;> rfl

theorem settles_error (t : Tables) (e : ProblemError) :
    t.Settles (.error e t) (.error e : Except ProblemError (α × Problem)) :=
  ⟨rfl, rfl⟩

section Settles

variable {x : EStateM.Result ProblemError Tables α} {y : Except ProblemError (α × Problem)}
  {a : α} {e : ProblemError} {t' : Tables}

theorem Settles.exists_ok (h : t.Settles x y) (hx : x = .ok a t') :
    ∃ q, y = .ok (a, q) ∧ t'.Shows q := by
  subst hx
  cases y with
  | error e => exact h.elim
  | ok r =>
    obtain ⟨rfl, hr⟩ := h
    exact ⟨r.2, rfl, hr⟩

theorem Settles.eq_error (h : t.Settles x y) (hx : x = .error e t') : y = .error e ∧ t' = t := by
  subst hx
  cases y with
  | ok r => exact h.elim
  | error e' =>
    obtain ⟨rfl, rfl⟩ := h
    exact ⟨rfl, rfl⟩

end Settles

/-- A name is entered in place if it can be entered in the catalog with its value. It then remains
to be shown that the rest of the program makes the tables show the new problem. -/
theorem settles_register_bind {β : Type} {c : Catalog α} {table : Tables → NameTable}
    {put : Tables → NameTable → Tables} (hc : (table t).Shows c) (name : String) (a : α)
    (failure : NameError → ProblemError) {rest : Nat → InPlace β} {b : β}
    {q : Catalog α → Problem}
    (hrest : ∀ names d, c.insert name a = .ok d → names.Shows d →
      t.Settles ((rest c.size).run (put t names)) (.ok (b, q d))) :
    t.Settles ((InPlace.register table put name failure >>= rest).run t)
      ((c.insert name a).mapError failure >>= fun d ↦ .ok (b, q d)) := by
  rw [InPlace.register, bind_assoc, run_inspect_bind]
  cases hd : c.insert name a with
  | error e =>
    rw [hc.register_of_error hd]
    exact t.settles_error _
  | ok d =>
    obtain ⟨names, hregister, hnames⟩ := hc.register_of_ok hd
    rw [hregister]
    exact hrest names d hd hnames

theorem settles_addType (h : t.Shows p) (name : String) (supertypes : List String) :
    t.Settles ((InPlace.addType name supertypes).run t) (p.addType name supertypes) := by
  rw [InPlace.addType, run_inspect_bind, h.typeOf_eq, Problem.addType, typesOf]
  cases lookUpTypes p.types.typeOf supertypes with
  | error e => exact t.settles_error _
  | ok ts =>
    change t.Settles _ ((p.types.define name ts).mapError .hierarchy >>= fun types ↦
      .ok ((⟨p.types.size⟩ : TypeId), { p with types }))
    simp only [Except.mapError, run_inspect_bind, TypeHierarchy.define, h.size_types]
    cases ts.find? fun s ↦ p.types.size ≤ s.index with
    | some s => exact t.settles_error _
    | none =>
      refine Eq.mp (congrArg (t.Settles _) ?_) (settles_register_bind
        (q := fun d ↦ { p with types := ⟨d⟩ }) h.typeNames name ts _ fun names d hd hnames ↦
          ⟨rfl, { h with
            typeNames := hnames
            supertypes := ?_ }⟩)
      · cases p.types.insert name ts <;> rfl
      · exact (congrArg (· ++ [ts]) h.supertypes).trans (Catalog.values_insert hd).symm

theorem settles_addConstant (h : t.Shows p) (name type : String) :
    t.Settles ((InPlace.addConstant name type).run t) (p.addConstant name type) := by
  rw [InPlace.addConstant, run_inspect_bind, h.typeOf_eq, Problem.addConstant]
  cases p.types.typeOf type with
  | error e => exact t.settles_error _
  | ok type =>
    exact settles_register_bind h.constantNames name type .naming fun names d hd hnames ↦
      ⟨rfl, { h with
        constantNames := hnames
        constantTypes := (congrArg (· ++ [type]) h.constantTypes).trans
          (Catalog.values_insert hd).symm }⟩

theorem settles_addPredicate (h : t.Shows p) (name : String) (signature : List String) :
    t.Settles ((InPlace.addPredicate name signature).run t) (p.addPredicate name signature) := by
  rw [InPlace.addPredicate, run_inspect_bind, h.typeOf_eq, Problem.addPredicate, typesOf]
  cases lookUpTypes p.types.typeOf signature with
  | error e => exact t.settles_error _
  | ok ts =>
    exact settles_register_bind h.predicateNames name ts .naming fun names d hd hnames ↦
      ⟨rfl, { h with
        predicateNames := hnames
        signatures := (congrArg (· ++ [ts]) h.signatures).trans (Catalog.values_insert hd).symm }⟩

theorem settles_addOperator (h : t.Shows p) (name : String) (parameters : List (String × String)) :
    t.Settles ((InPlace.addOperator name parameters).run t) (p.addOperator name parameters) := by
  rw [InPlace.addOperator, run_inspect_bind, h.typeOf_eq, Problem.addOperator, typedParameters]
  cases lookUpParameters p.types.typeOf [] parameters with
  | error e => exact t.settles_error _
  | ok typed =>
    refine settles_register_bind h.operatorNames name
      { parameters := p.nextVariables typed.length } .naming fun names d hd hnames ↦
        ⟨rfl, { h with
          operatorNames := hnames
          operators := ?_
          parameters := congrArg (· ++ typed) h.parameters }⟩
    rw [storedOperators_insert hd, ← h.operators, nextVariables, ← h.parameters]

theorem settles_addFormula (h : t.Shows p) (role : Role) (op : OperatorId) (f : Formula) :
    t.Settles ((InPlace.addFormula role op f).run t) ((p.addFormula role op f).map ((), ·)) := by
  rw [InPlace.addFormula, run_inspect_bind, h.problem_eq, h.operators, getElem?_storedOperators,
    Problem.addFormula, Catalog.name?]
  cases p.operators.entries[op.index]? with
  | none => exact t.settles_error _
  | some entry =>
    cases hf : p.checkFormula f with
    | error e => cases role <;> exact t.settles_error _
    | ok _ =>
      have hdemand : Shows
          { t with
            operators := t.operators.modify op.index fun stored ↦
              { stored with toOperator := stored.toOperator.demand role f } }
          (p.demand role op f) :=
        { h with
          operatorNames := ⟨h.operatorNames.kind, h.operatorNames.names.trans ?_,
            h.operatorNames.inStep⟩
          operators := ?_ }
      · cases role <;> exact ⟨rfl, hdemand⟩
      · exact (Catalog.entries_update_map fun _ ↦ rfl).symm
      · exact (congrArg (List.modify · _ _) h.operators).trans
          (storedOperators_update p.operators op.index (·.demand role f)).symm

theorem settles_addInitialAtom (h : t.Shows p) (c : Condition) :
    t.Settles ((InPlace.addInitialAtom c).run t) (p.addInitialAtom c) := by
  rw [InPlace.addInitialAtom, run_inspect_bind, h.problem_eq, Problem.addInitialAtom]
  cases p.checkCondition c with
  | error e => exact t.settles_error _
  | ok _ =>
    cases c.negated with
    | true => exact t.settles_error _
    | false =>
      cases c.groundAtom? with
      | none => exact t.settles_error _
      | some a =>
        change t.Settles ((if a ∈ t.init then pure false else _ : InPlace Bool).run t)
          (if a ∈ p.init then pure (false, p) else _)
        rw [h.init]
        by_cases ha : a ∈ p.init
        · rw [if_pos ha, if_pos ha]
          exact ⟨rfl, h⟩
        · rw [if_neg ha, if_neg ha]
          exact ⟨rfl, { h with init := congrArg (· ++ [a]) h.init }⟩

theorem settles_addGoal (h : t.Shows p) (c : Condition) :
    t.Settles ((InPlace.addGoal c).run t) ((p.addGoal c).map ((), ·)) := by
  rw [InPlace.addGoal, run_inspect_bind, h.problem_eq, Problem.addGoal]
  cases p.checkCondition c with
  | error e => exact t.settles_error _
  | ok _ =>
    cases c.isGround with
    | false => exact t.settles_error _
    | true => exact ⟨rfl, { h with goal := congrArg (· ++ [c]) h.goal }⟩

theorem settles_map {β : Type} {f : α → β} {x : InPlace α} {y : Except ProblemError (α × Problem)}
    (h : t.Settles (x.run t) y) : t.Settles ((f <$> x).run t) (y.map (.map f id)) := by
  change t.Settles (EStateM.map f x t) _
  rw [EStateM.map]
  cases hx : x t with
  | ok a t' =>
    obtain ⟨q, rfl, hq⟩ := h.exists_ok hx
    exact ⟨rfl, hq⟩
  | error e t' =>
    obtain ⟨rfl, rfl⟩ := h.eq_error hx
    exact ⟨rfl, rfl⟩

/-- **The step.** Operations in place do what they do to problems. The tables end up showing the
problem that the operation makes, or stay as they were if it fails. -/
theorem settles_perform (h : t.Shows p) (edit : Edit) :
    t.Settles ((InPlace.perform edit).run t) (p.perform edit) := by
  cases edit with
  | type name supertypes => exact settles_map (settles_addType h name supertypes)
  | constant name type => exact settles_map (settles_addConstant h name type)
  | predicate name signature => exact settles_map (settles_addPredicate h name signature)
  | operator name parameters => exact settles_map (settles_addOperator h name parameters)
  | precondition op f =>
    have hsettles := settles_map (f := fun _ ↦ Answer.done)
      (settles_addFormula h .precondition op f)
    rw [Problem.perform, addPrecondition]
    cases hq : p.addFormula .precondition op f <;> rwa [hq] at hsettles
  | effect op f =>
    have hsettles := settles_map (f := fun _ ↦ Answer.done) (settles_addFormula h .effect op f)
    rw [Problem.perform, addEffect]
    cases hq : p.addFormula .effect op f <;> rwa [hq] at hsettles
  | initial c => exact settles_map (settles_addInitialAtom h c)
  | goal c =>
    have hsettles := settles_map (f := fun _ ↦ Answer.done) (settles_addGoal h c)
    rw [Problem.perform]
    cases hq : p.addGoal c <;> rwa [hq] at hsettles

/-! ## Histories -/

/-- The tables after an operation, however it ended. -/
def after (t : Tables) (edit : Edit) : Tables :=
  match (InPlace.perform edit).run t with
  | .ok _ t' => t'
  | .error _ t' => t'

theorem Shows.after (h : t.Shows p) (edit : Edit) : (t.after edit).Shows (p.after edit) := by
  have hsettles := settles_perform h edit
  rw [Tables.after, Problem.after]
  cases hr : (InPlace.perform edit).run t with
  | ok answer t' =>
    obtain ⟨q, hq, ht'⟩ := hsettles.exists_ok hr
    rwa [hq]
  | error err t' =>
    obtain ⟨hq, rfl⟩ := hsettles.eq_error hr
    rwa [hq]

/-- What the tables keep twice agrees. The maps and the lists of names lead back and forth, every
name has a value, and an operator has the handle of its place and the name that is listed there. -/
structure InStep (t : Tables) : Prop where
  typeNames : t.typeNames.Indexed t.supertypes.length
  constantNames : t.constantNames.Indexed t.constantTypes.length
  predicateNames : t.predicateNames.Indexed t.signatures.length
  operatorNames : t.operatorNames.Indexed t.operators.length
  operators : ∀ i stored, t.operators[i]? = some stored →
    stored.id = ⟨i⟩ ∧ t.operatorNames.name? i = some stored.name

theorem Shows.inStep (h : t.Shows p) : t.InStep where
  typeNames := h.typeNames.indexed (h.supertypes ▸ List.length_map _)
  constantNames := h.constantNames.indexed (h.constantTypes ▸ List.length_map _)
  predicateNames := h.predicateNames.indexed (h.signatures ▸ List.length_map _)
  operatorNames := h.operatorNames.indexed (by rw [h.operators, storedOperators]; simp [Catalog.size])
  operators i stored hi := by
    rw [h.operators, getElem?_storedOperators] at hi
    obtain ⟨entry, he, rfl⟩ := Option.map_eq_some_iff.mp hi
    refine ⟨rfl, ?_⟩
    rw [NameTable.name?, h.operatorNames.names, Catalog.names, List.getElem?_map, he]
    rfl

/-- The tables after the operations on a harbour. -/
def harbour : Tables :=
  harbourEdits.foldl after {}

end Tables

end Problem

end LiftedPlanning
