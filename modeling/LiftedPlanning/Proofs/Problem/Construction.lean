import LiftedPlanning.Proofs.Problem.WellFormed

/-!
# What the construction of problems preserves

Each operation keeps a problem well-formed, and it does not come upon an unknown handle if it is
given known ones. Declarations leave the formulas of the operators alone; a formula that is demanded
adds its conditions and its choices to those of one operator.
-/

namespace LiftedPlanning

open Fallible (Meets)

/-! ## Demands on operators -/

namespace Operator

variable {schema : Operator} {role : Role} {f : Formula}

/-- The operator after a formula was demanded of it in a role. -/
def demand (schema : Operator) (role : Role) (f : Formula) : Operator :=
  match role with
  | .precondition => { schema with precondition := schema.precondition.and f }
  | .effect => { schema with effect := schema.effect.and f }

@[simp] theorem parameters_demand : (schema.demand role f).parameters = schema.parameters := by
  cases role <;> rfl

theorem scopes_demand {c : Condition} : (schema.demand role f).Scopes c ↔ schema.Scopes c := by
  simp only [Scopes, position?, parameters_demand]

theorem formula_demand {role' : Role} :
    (schema.demand role f).formula role' =
      if role = role' then (schema.formula role').and f else schema.formula role' := by
  cases role <;> cases role' <;> rfl

theorem mem_conditions_demand {role' : Role} {c : Condition} :
    c ∈ ((schema.demand role f).formula role').conditions ↔
      c ∈ (schema.formula role').conditions ∨ role = role' ∧ c ∈ f.conditions := by
  rw [formula_demand]
  split
  · rename_i h
    rw [Formula.conditions_and, List.mem_append, and_iff_right h]
  · rename_i h
    simp [h]

theorem choices_demand_eq_nil_iff {role' : Role} :
    ((schema.demand role f).formula role').choices = [] ↔
      (schema.formula role').choices = [] ∧ (role = role' → f.choices = []) := by
  rw [formula_demand]
  split
  · rename_i h
    rw [Formula.choices_and, List.append_eq_nil_iff, forall_prop_of_true h]
  · rename_i h
    simp [h]

end Operator

namespace Problem

variable {p q : Problem} {name : String} {op : OperatorId} {schema : Operator}

/-! ## Operators that stay -/

/-- The operators of `q` are those of `p`, and perhaps new ones that demand nothing yet. -/
structure Keeps (p q : Problem) : Prop where
  old : ∀ op schema, p.operator? op = some schema → q.operator? op = some schema
  new : ∀ op schema, q.operator? op = some schema →
    p.operator? op = some schema ∨ ∀ role, schema.formula role = .truth

theorem Keeps.of_eq (h : q.operators = p.operators) : p.Keeps q := by
  have hop : ∀ op, q.operator? op = p.operator? op := fun op ↦ by rw [operator?, operator?, h]
  exact ⟨fun op _ hp ↦ (hop op).trans hp, fun op _ hq ↦ .inl ((hop op).symm.trans hq)⟩

theorem Keeps.trans {r : Problem} (h : p.Keeps q) (h' : q.Keeps r) : p.Keeps r where
  old op schema hop := h'.old op schema (h.old op schema hop)
  new op schema hop := (h'.new op schema hop).elim (h.new op schema) .inr

theorem Keeps.scoped (h : p.Keeps q) (hp : p.Scoped) : q.Scoped := by
  intro op schema hop role c hc
  rcases h.new op schema hop with hold | htruth
  · exact hp op schema hold role c hc
  · rw [htruth] at hc
    simp [Formula.truth, Formula.conditions, Formula.conditionsAll] at hc

/-- Some operator demands or brings about a choice. -/
def HasChoice (p : Problem) : Prop :=
  ∃ op schema role, p.operator? op = some schema ∧ (schema.formula role).choices ≠ []

theorem not_hasChoice_empty : ¬empty.HasChoice := by
  rintro ⟨_, _, _, h, _⟩
  simp [empty, operator?, Catalog.value?] at h

theorem Keeps.hasChoice_iff (h : p.Keeps q) : q.HasChoice ↔ p.HasChoice := by
  constructor
  · rintro ⟨op, schema, role, hop, hchoices⟩
    rcases h.new op schema hop with hold | htruth
    · exact ⟨op, schema, role, hold, hchoices⟩
    · rw [htruth] at hchoices
      simp [Formula.truth, Formula.choices, Formula.choicesAll] at hchoices
  · rintro ⟨op, schema, role, hop, hchoices⟩
    exact ⟨op, schema, role, h.old op schema hop, hchoices⟩

/-! ## Declarations -/

/-- A failure to find or to enter a name is not about a handle. -/
theorem typeOf_meets {f : NameError → ProblemError} (hf : ∀ e, (f e).isUnknownHandle = false) :
    Meets ((p.types.typeOf name).mapError f) (fun t ↦ t.index < p.types.size)
      (·.isUnknownHandle = false) :=
  .mapError (.of_eq_ok (fun _ ↦ TypeHierarchy.index_lt_of_typeOf) hf)

theorem insert_meets {α : Type} (c : Catalog α) (a : α) :
    Meets ((c.insert name a).mapError ProblemError.naming)
      (fun d ↦ d = { c with entries := c.entries ++ [(name, a)] }) (·.isUnknownHandle = false) :=
  .mapError (.of_eq_ok (fun _ h ↦ (Catalog.insert_eq_ok_iff.mp h).2) fun _ ↦ rfl)

theorem typesOf_meets (names : List String) :
    Meets (p.typesOf names) (fun types ↦ ∀ t ∈ types, t.index < p.types.size)
      (·.isUnknownHandle = false) := by
  have hname : ∀ name ∈ names, Meets ((p.types.typeOf name).mapError ProblemError.naming)
      (fun t ↦ t.index < p.types.size) (·.isUnknownHandle = false) :=
    fun _ _ ↦ typeOf_meets fun _ ↦ rfl
  refine (Meets.mapM hname).mono fun types htypes t ht ↦ ?_
  obtain ⟨_, _, hlt⟩ := Fallible.exists_left htypes ht
  exact hlt

/-- What a declaration comes to. -/
structure Declared (p q : Problem) : Prop where
  wellFormed : q.WellFormed
  keeps : p.Keeps q

theorem addType_meets (hp : p.WellFormed) (supertypes : List String) :
    Meets (p.addType name supertypes) (fun r ↦ p.Declared r.2) (·.isUnknownHandle = false) := by
  refine (Meets.mapError (typesOf_meets supertypes)).bind fun ts _ ↦ ?_
  have hdefine : Meets ((p.types.define name ts).mapError ProblemError.hierarchy)
      (fun types ↦ p.types.define name ts = .ok types) (·.isUnknownHandle = false) :=
    .mapError (.of_eq_ok (fun _ ↦ id) fun _ ↦ rfl)
  refine hdefine.bind fun types hdefine ↦ ?_
  have hlinks := hp.links.define hdefine
  obtain ⟨_, _, rfl⟩ := TypeHierarchy.define_eq_ok_iff.mp hdefine
  have hsize : p.types.size ≤ (p.types.entries ++ [(name, ts)]).length := by
    rw [List.length_append]
    exact Nat.le_add_right _ _
  refine ⟨?_, .of_eq rfl⟩
  refine hp.of_extends ⟨List.prefix_append _ _, List.prefix_rfl, List.prefix_rfl, List.prefix_rfl⟩
    ⟨hlinks, ?_, ?_, ?_⟩ (fun _ _ ↦ .inl) (fun _ ↦ .inl) (fun _ ↦ .inl)
  · exact fun c t h ↦ Nat.lt_of_lt_of_le (hp.constants c t h) hsize
  · exact fun q ts h t ht ↦ Nat.lt_of_lt_of_le (hp.predicates q ts h t ht) hsize
  · exact fun entry h ↦ Nat.lt_of_lt_of_le (hp.parameters entry h) hsize

theorem addConstant_meets (hp : p.WellFormed) (type : String) :
    Meets (p.addConstant name type) (fun r ↦ p.Declared r.2) (·.isUnknownHandle = false) := by
  refine (typeOf_meets fun _ ↦ rfl).bind fun t ht ↦ ?_
  refine (insert_meets p.constants t).bind ?_
  rintro _ rfl
  refine ⟨?_, .of_eq rfl⟩
  refine hp.of_extends ⟨List.prefix_rfl, List.prefix_append _ _, List.prefix_rfl, List.prefix_rfl⟩
    ⟨hp.links, ?_, hp.predicates, hp.parameters⟩ (fun _ _ ↦ .inl) (fun _ ↦ .inl) (fun _ ↦ .inl)
  intro c type h
  rcases Catalog.value?_concat.mp h with h | ⟨_, rfl⟩
  · exact hp.constants c type h
  · exact ht

theorem addPredicate_meets (hp : p.WellFormed) (signature : List String) :
    Meets (p.addPredicate name signature) (fun r ↦ p.Declared r.2)
      (·.isUnknownHandle = false) := by
  refine (Meets.mapError (typesOf_meets signature)).bind fun ts hts ↦ ?_
  refine (insert_meets p.predicates ts).bind ?_
  rintro _ rfl
  refine ⟨?_, .of_eq rfl⟩
  refine hp.of_extends ⟨List.prefix_rfl, List.prefix_rfl, List.prefix_append _ _, List.prefix_rfl⟩
    ⟨hp.links, hp.constants, ?_, hp.parameters⟩ (fun _ _ ↦ .inl) (fun _ ↦ .inl) (fun _ ↦ .inl)
  intro predicate types h
  rcases Catalog.value?_concat.mp h with h | ⟨_, rfl⟩
  · exact hp.predicates predicate types h
  · exact hts

theorem typedParameters_meets (earlier : List String) (parameters : List (String × String)) :
    Meets (p.typedParameters earlier parameters)
      (fun typed ↦ ∀ entry ∈ typed, entry.2.index < p.types.size) (·.isUnknownHandle = false) := by
  induction parameters generalizing earlier with
  | nil => exact List.forall_mem_nil _
  | cons parameter rest ih =>
    rw [typedParameters, lookUpParameters]
    split
    · rfl
    · refine (typeOf_meets fun _ ↦ rfl).bind fun t ht ↦ ?_
      exact (ih _).bind fun typed htyped ↦ List.forall_mem_cons.mpr ⟨ht, htyped⟩

theorem addOperator_meets (hp : p.WellFormed) (parameters : List (String × String)) :
    Meets (p.addOperator name parameters) (fun r ↦ p.Declared r.2)
      (·.isUnknownHandle = false) := by
  refine (Meets.mapError (typedParameters_meets [] parameters)).bind fun typed htyped ↦ ?_
  refine (insert_meets p.operators _).bind ?_
  rintro _ rfl
  refine ⟨?_, fun op schema h ↦ Catalog.value?_concat.mpr (.inl h), fun op schema h ↦ ?_⟩
  · refine hp.of_extends ⟨List.prefix_rfl, List.prefix_rfl, List.prefix_rfl, List.prefix_append _ _⟩
      ⟨hp.links, hp.constants, hp.predicates, ?_⟩ (fun op schema h ↦ ?_) (fun _ ↦ .inl)
      (fun _ ↦ .inl)
    · exact List.forall_mem_append.mpr ⟨hp.parameters, htyped⟩
    · refine (Catalog.value?_concat.mp h).imp_right ?_
      rintro ⟨_, rfl⟩
      refine ⟨?_, fun role c hc ↦ ?_⟩
      · rw [List.forall_mem_map]
        intro i hi
        rw [List.length_append]
        exact Nat.add_lt_add_left (List.mem_range.mp hi) _
      · cases role <;>
          simp [Operator.formula, Formula.truth, Formula.conditions, Formula.conditionsAll] at hc
  · refine (Catalog.value?_concat.mp h).imp_right ?_
    rintro ⟨_, rfl⟩ role
    cases role <;> rfl

/-! ## Atoms and goals -/

theorem addInitialAtom_meets (hp : p.WellFormed) {c : Condition} (hc : p.declares c = true) :
    Meets (p.addInitialAtom c) (fun r ↦ p.Declared r.2) (·.isUnknownHandle = false) := by
  refine (checkCondition_meets hc).bind fun _ hcheck ↦ ?_
  by_cases hn : c.negated = true
  · rw [if_pos hn]
    rfl
  rw [if_neg hn]
  dsimp only
  split
  · rfl
  rename_i a ha
  split
  · exact ⟨hp, .of_eq rfl⟩
  have hext : p.Extends { p with init := p.init ++ [a] } :=
    ⟨List.prefix_rfl, List.prefix_rfl, List.prefix_rfl, List.prefix_rfl⟩
  refine ⟨hp.of_extends hext ⟨hp.links, hp.constants, hp.predicates, hp.parameters⟩
    (fun _ _ ↦ .inl) (fun b hb ↦ ?_) (fun _ ↦ .inl), .of_eq rfl⟩
  refine (List.mem_append.mp hb).imp_right fun hb ↦ ?_
  rw [List.mem_singleton.mp hb,
    Condition.toCondition_of_groundAtom? ha (Bool.not_eq_true _ ▸ hn)]
  exact hext.checkCondition hp.toTyped hcheck

theorem addGoal_meets (hp : p.WellFormed) {c : Condition} (hc : p.declares c = true) :
    Meets (p.addGoal c) p.Declared (·.isUnknownHandle = false) := by
  refine (checkCondition_meets hc).bind fun _ hcheck ↦ ?_
  split
  · rename_i hground
    have hext : p.Extends { p with goal := p.goal ++ [c] } :=
      ⟨List.prefix_rfl, List.prefix_rfl, List.prefix_rfl, List.prefix_rfl⟩
    refine ⟨hp.of_extends hext ⟨hp.links, hp.constants, hp.predicates, hp.parameters⟩
      (fun _ _ ↦ .inl) (fun _ ↦ .inl) (fun d hd ↦ ?_), .of_eq rfl⟩
    refine (List.mem_append.mp hd).imp_right fun hd ↦ ?_
    rw [List.mem_singleton.mp hd]
    exact ⟨hext.checkCondition hp.toTyped hcheck, hground⟩
  · rfl

/-! ## Formulas -/

/-- The problem after a formula was demanded of one of its operators. -/
def demand (p : Problem) (role : Role) (op : OperatorId) (f : Formula) : Problem :=
  { p with operators := p.operators.update op.index (·.demand role f) }

theorem operator?_demand {role : Role} {f : Formula} {op' : OperatorId} :
    (p.demand role op f).operator? op' =
      if op = op' then (p.operator? op').map (·.demand role f) else p.operator? op' := by
  rw [operator?, demand, Catalog.value?_update]
  simp only [Handle.index_injective.eq_iff, operator?]

theorem exists_of_operator?_demand {role : Role} {f : Formula} {op' : OperatorId}
    (h : (p.demand role op f).operator? op' = some schema) :
    p.operator? op' = some schema ∨
      ∃ before, op = op' ∧ p.operator? op = some before ∧ schema = before.demand role f := by
  rw [operator?_demand] at h
  split at h
  · rename_i heq
    subst heq
    obtain ⟨before, hbefore, rfl⟩ := Option.map_eq_some_iff.mp h
    exact .inr ⟨before, rfl, hbefore, rfl⟩
  · exact .inl h

theorem WellFormed.demand (hp : p.WellFormed) {role : Role} {f : Formula}
    (hf : ∀ c ∈ f.conditions, p.checkCondition c = .ok ()) : (p.demand role op f).WellFormed := by
  have hext : p.Extends (p.demand role op f) :=
    ⟨List.prefix_rfl, List.prefix_rfl, List.prefix_rfl, List.prefix_rfl⟩
  refine hp.of_extends hext ⟨hp.links, hp.constants, hp.predicates, hp.parameters⟩
    (fun op' schema h ↦ ?_) (fun _ ↦ .inl) (fun _ ↦ .inl)
  refine (exists_of_operator?_demand h).imp_right ?_
  rintro ⟨before, rfl, hbefore, rfl⟩
  have hchecks := hp.operators _ _ hbefore
  refine ⟨?_, fun role' c hc ↦ hext.checkCondition hp.toTyped ?_⟩
  · rw [Operator.parameters_demand]
    exact hchecks.parameters
  · rcases Operator.mem_conditions_demand.mp hc with hc | ⟨_, hc⟩
    · exact hchecks.conditions role' c hc
    · exact hf c hc

theorem Scoped.demand (hp : p.Scoped) (hop : p.operator? op = some schema) {role : Role}
    {f : Formula} (hf : ∀ c ∈ f.conditions, schema.Scopes c) : (p.demand role op f).Scoped := by
  intro op' after h role' c hc
  rcases exists_of_operator?_demand h with hold | ⟨before, rfl, hbefore, rfl⟩
  · exact hp op' after hold role' c hc
  · obtain rfl : schema = before := Option.some.inj (hop.symm.trans hbefore)
    rw [Operator.scopes_demand]
    rcases Operator.mem_conditions_demand.mp hc with hc | ⟨_, hc⟩
    · exact hp _ _ hop role' c hc
    · exact hf c hc

theorem hasChoice_demand_iff (hop : p.operator? op = some schema) {role : Role} {f : Formula} :
    (p.demand role op f).HasChoice ↔ p.HasChoice ∨ f.choices ≠ [] := by
  have hafter : (p.demand role op f).operator? op = some (schema.demand role f) := by
    rw [operator?_demand, if_pos rfl, hop, Option.map_some]
  constructor
  · rintro ⟨op', after, role', h, hchoices⟩
    rcases exists_of_operator?_demand h with hold | ⟨before, rfl, hbefore, rfl⟩
    · exact .inl ⟨op', after, role', hold, hchoices⟩
    · rw [Ne, Operator.choices_demand_eq_nil_iff, not_and_or, Classical.not_imp] at hchoices
      exact hchoices.imp (fun h ↦ ⟨_, _, role', hbefore, h⟩) And.right
  · rintro (⟨op', before, role', h, hchoices⟩ | hf)
    · by_cases heq : op = op'
      · subst heq
        obtain rfl : schema = before := Option.some.inj (hop.symm.trans h)
        exact ⟨op, _, role', hafter, fun hnil ↦
          hchoices (Operator.choices_demand_eq_nil_iff.mp hnil).1⟩
      · exact ⟨op', before, role', by rw [operator?_demand, if_neg heq, h], hchoices⟩
    · exact ⟨op, _, role, hafter, fun hnil ↦
        hf ((Operator.choices_demand_eq_nil_iff.mp hnil).2 rfl)⟩

theorem addFormula_meets (hp : p.WellFormed) (hop : p.operator? op = some schema) {role : Role}
    {f : Formula} (hf : ∀ c ∈ f.conditions, p.declares c = true) :
    Meets (p.addFormula role op f) (fun q ↦ q.WellFormed ∧ q = p.demand role op f)
      (·.isUnknownHandle = false) := by
  obtain ⟨⟨name, _⟩, hentry, rfl⟩ := Option.map_eq_some_iff.mp hop
  have hname : p.operators.name? op.index = some name := by rw [Catalog.name?, hentry]; rfl
  have hcheck : Meets (p.checkFormula f) (fun _ ↦ ∀ c ∈ f.conditions, p.checkCondition c = .ok ())
      (·.isUnknownHandle = false) := .forM fun c hc ↦ checkCondition_meets (hf c hc)
  rw [addFormula, hname]
  refine (hcheck.mapError).bind fun _ hcheck ↦ ?_
  have hdemand : (p.demand role op f).WellFormed := hp.demand hcheck
  cases role <;> exact ⟨hdemand, rfl⟩

end Problem

end LiftedPlanning
