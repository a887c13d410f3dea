import LiftedPlanning.Declaration.Reader
import LiftedPlanning.Proofs.Problem.Construction

/-!
# What the reader builds

The reader looks every name up before it uses the handle, so it never comes upon an unknown one, and
the problem that it has built so far is well-formed after each line. It goes beyond what
construction enforces in one point: a variable is looked up among the parameters of the operator
that the literal belongs to, so the conditions of an operator are over its own parameters. An
operator has a choice exactly if one of its declarations was a disjunction of several literals.
-/

namespace LiftedPlanning.Declaration

open Fallible (Meets)
open Text

variable {p q : Problem}

/-- Whether the failure comes down to a handle that the problem has not issued. -/
def LineError.isUnknownHandle : LineError → Bool
  | .problem cause => cause.isUnknownHandle
  | _ => false

/-! ## Terms and literals -/

/-- A variable is a parameter of the operator that the term is read for. -/
def InScope (p : Problem) (scope : Option OperatorId) (t : Term) : Prop :=
  ∀ v, t = .param v → ∃ op schema, scope = some op ∧ p.operator? op = some schema ∧
    (schema.position? v).isSome = true

/-- The operator that a literal is read for, if any, is declared. -/
def ScopeDeclared (p : Problem) (scope : Option OperatorId) : Prop :=
  ∀ op, scope = some op → ∃ schema, p.operator? op = some schema

theorem variableOf_meets {op : OperatorId} {schema : Operator} (hop : p.operator? op = some schema)
    (name : String) :
    Meets (p.variableOf op name) (fun v ↦ v ∈ schema.parameters) (·.isUnknownHandle = false) := by
  rw [Problem.variableOf, hop]
  dsimp only
  split
  · rename_i v hv
    exact List.mem_of_find?_eq_some hv
  · rfl

theorem readName_meets (text : List Char) :
    Meets (readName text) (fun _ ↦ True) (·.isUnknownHandle = false) := by
  rw [readName]
  split
  · trivial
  · rfl

theorem readTerm_meets (hp : p.WellFormed) {scope : Option OperatorId}
    (hscope : ScopeDeclared p scope) (text : List Char) :
    Meets (readTerm p scope text) (fun t ↦ (p.termType? t).isSome = true ∧ InScope p scope t)
      (·.isUnknownHandle = false) := by
  unfold readTerm
  cases variableName? text with
  | none =>
    refine (readName_meets text).bind fun name _ ↦ .mapError (.map ?_)
    refine .of_eq_ok (fun c hc ↦ ⟨?_, nofun⟩) fun _ ↦ rfl
    exact Catalog.isSome_value? (Catalog.index_lt_of_find hc)
  | some name =>
    cases scope with
    | none => rfl
    | some op =>
      obtain ⟨schema, hop⟩ := hscope op rfl
      refine Meets.mapError (Meets.map ((variableOf_meets hop _).mono fun v hv ↦ ⟨?_, ?_⟩))
      · exact (hp.operators op schema hop).isSome_variableType? hv
      · rintro _ ⟨⟩
        exact ⟨op, schema, rfl, hop, List.isSome_idxOf?.mpr hv⟩

theorem readLiteral_meets (hp : p.WellFormed) {scope : Option OperatorId}
    (hscope : ScopeDeclared p scope) (text : List Char) :
    Meets (readLiteral p scope text)
      (fun c ↦ p.declares c = true ∧ ∀ t ∈ c.args, InScope p scope t)
      (·.isUnknownHandle = false) := by
  rw [readLiteral]
  split
  · rfl
  · rename_i shape _
    have hpredicate : Meets
        ((p.predicateOf (String.ofList shape.predicate)).mapError fun e ↦
          LineError.problem (.naming e))
        (fun predicate ↦ (p.signature? predicate).isSome = true)
        (·.isUnknownHandle = false) := by
      refine .mapError (.of_eq_ok (fun predicate h ↦ ?_) fun _ ↦ rfl)
      exact Catalog.isSome_value? (Catalog.index_lt_of_find h)
    refine hpredicate.bind fun predicate hpredicate ↦ ?_
    refine (Meets.mapM fun text _ ↦ readTerm_meets hp hscope text).bind fun args hargs ↦ ?_
    have hall : ∀ t ∈ args, (p.termType? t).isSome = true ∧ InScope p scope t := fun t ht ↦
      (Fallible.exists_left hargs ht).elim fun _ h ↦ h.2
    refine ⟨?_, fun t ht ↦ (hall t ht).2⟩
    rw [Problem.declares, hpredicate, Bool.true_and, List.all_eq_true]
    exact fun t ht ↦ (hall t ht).1

/-! ## Formulas -/

theorem length_fields_pos (separator : Char) (text : List Char) :
    0 < (fields separator text).length := by
  rw [fields]
  induction text with
  | nil => exact Nat.one_pos
  | cons c text ih =>
    rw [fieldsBy]
    split
    · exact Nat.succ_pos _
    · split
      · exact Nat.one_pos
      · exact Nat.succ_pos _

theorem readFormula_meets (hp : p.WellFormed) {op : OperatorId} {schema : Operator}
    (hop : p.operator? op = some schema) (text : List Char) :
    Meets (readFormula p op text)
      (fun f ↦ (∀ c ∈ f.conditions, p.declares c = true ∧ schema.Scopes c) ∧
        (f.choices ≠ [] ↔ 2 ≤ (fields '|' text).length))
      (·.isUnknownHandle = false) := by
  have hscope : ScopeDeclared p (some op) := by
    rintro _ ⟨⟩
    exact ⟨schema, hop⟩
  refine (Meets.mapM fun field _ ↦ readLiteral_meets hp hscope (trim field)).bind
    fun literals hliterals ↦ ?_
  have hpos := length_fields_pos '|' text
  rw [hliterals.length_eq] at hpos ⊢
  have hall : ∀ c ∈ literals, p.declares c = true ∧ schema.Scopes c := by
    intro c hc
    obtain ⟨_, _, hdeclared, hargs⟩ := Fallible.exists_left hliterals hc
    refine ⟨hdeclared, fun v hv ↦ ?_⟩
    obtain ⟨_, schema', ⟨⟩, hop', hv⟩ := hargs _ (Condition.mem_vars_iff.mp hv) v rfl
    rwa [Option.some.inj (hop.symm.trans hop')]
  split
  · rename_i c
    refine ⟨by simpa [Formula.conditions] using hall, ?_⟩
    simp [Formula.choices]
  · rename_i hne
    have hlen : literals.length ≠ 1 := fun h ↦ by
      obtain ⟨c, rfl⟩ := List.length_eq_one_iff.mp h
      exact hne c rfl
    refine ⟨by rwa [Formula.conditions_disj_literals], iff_of_true ?_ (by omega)⟩
    rw [Formula.choices_disj (by rwa [List.length_map])]
    exact List.cons_ne_nil _ _

/-! ## Declarations -/

/-- Whether the formula in a body is a disjunction of several literals. -/
def bodyIsChoice (body : List Char) : Bool :=
  match splitAtComma? body with
  | none => false
  | some (_, formula) => 2 ≤ (fields '|' (trim formula)).length

/-- Whether a declaration demands or brings about a disjunction of several literals. -/
def Shape.isChoice (shape : Shape) : Bool :=
  (String.ofList shape.keyword == "pre" || String.ofList shape.keyword == "eff") &&
    bodyIsChoice shape.body

/-- Whether a line declares a precondition or an effect that is a disjunction of several literals.
-/
def lineIsChoice (line : Option (List Char)) : Bool :=
  match line.bind fun line ↦ shape? (content line) with
  | none => false
  | some shape => shape.isChoice

/-- A problem that is well-formed and has its variables in scope. -/
structure Sound (p : Problem) : Prop where
  wellFormed : p.WellFormed
  scopes : p.Scoped

theorem sound_empty : Sound .empty where
  wellFormed := Problem.wellFormed_empty
  scopes _ _ h := by simp [Problem.empty, Problem.operator?, Catalog.value?] at h

/-- What a declaration that was read makes of a problem; `choice` tells whether it is a choice. -/
structure Reads (p q : Problem) (choice : Bool) : Prop where
  sound : Sound q
  hasChoice : q.HasChoice ↔ p.HasChoice ∨ choice = true

theorem declareFormula_meets (hp : Sound p) (role : Role) (body : List Char) :
    Meets (declareFormula p role body) (fun q ↦ Reads p q (bodyIsChoice body))
      (·.isUnknownHandle = false) := by
  rw [declareFormula, bodyIsChoice]
  cases splitAtComma? body with
  | none => rfl
  | some parts =>
    obtain ⟨name, formula⟩ := parts
    have hoperator : Meets ((p.operatorOf (String.ofList (trim name))).mapError
        fun e ↦ LineError.problem (.naming e)) (fun op ↦ ∃ schema, p.operator? op = some schema)
        (·.isUnknownHandle = false) :=
      .mapError (.of_eq_ok (fun _ h ↦ Catalog.exists_value? (Catalog.index_lt_of_find h))
        fun _ ↦ rfl)
    refine hoperator.bind fun op ⟨schema, hop⟩ ↦ ?_
    refine (readFormula_meets hp.wellFormed hop _).bind fun f ⟨hconditions, hchoices⟩ ↦ ?_
    refine .mapError ((Problem.addFormula_meets hp.wellFormed hop
      fun c hc ↦ (hconditions c hc).1).mono ?_)
    rintro _ ⟨hq, rfl⟩
    refine ⟨⟨hq, hp.scopes.demand hop fun c hc ↦ (hconditions c hc).2⟩, ?_⟩
    rw [Problem.hasChoice_demand_iff hop, hchoices, decide_eq_true_eq]

theorem reads_of_declared (hp : Sound p) {shape : Shape} (hshape : shape.isChoice = false)
    (h : p.Declared q) : Reads p q shape.isChoice where
  sound := ⟨h.wellFormed, h.keeps.scoped hp.scopes⟩
  hasChoice := by simp [h.keeps.hasChoice_iff, hshape]

theorem declareConstants_meets (hp : p.WellFormed) (type : String) (names : List String) :
    Meets (declareConstants p type names) p.Declared (·.isUnknownHandle = false) := by
  induction names generalizing p with
  | nil => exact ⟨hp, .of_eq rfl⟩
  | cons name names ih =>
    rw [declareConstants]
    refine (Meets.mapError (Problem.addConstant_meets hp type)).bind fun r hr ↦ ?_
    exact (ih hr.wellFormed).mono fun q hq ↦ ⟨hq.wellFormed, hr.keeps.trans hq.keeps⟩

theorem readNames_meets (body : List Char) :
    Meets (readNames body) (fun _ ↦ True) (·.isUnknownHandle = false) :=
  (Meets.mapM fun text _ ↦ readName_meets text).mono fun _ _ ↦ trivial

theorem readParameter_meets (text : List Char) :
    Meets (readParameter text) (fun _ ↦ True) (·.isUnknownHandle = false) := by
  rw [readParameter]
  split
  · trivial
  · rfl

/-- **Declarations preserve soundness.** -/
theorem declare_meets (hp : Sound p) (shape : Shape) :
    Meets (declare p shape) (fun r ↦ Reads p r.1 shape.isChoice) (·.isUnknownHandle = false) := by
  have hscope : ScopeDeclared p none := nofun
  rw [declare]
  split
  case h_1 hkeyword =>
    have hshape : shape.isChoice = false := by simp [Shape.isChoice, hkeyword]
    refine (readNames_meets shape.body).bind fun names _ ↦ ?_
    split
    · rfl
    · refine (Meets.mapError (Problem.addType_meets hp.wellFormed _)).bind fun ⟨_, q⟩ hq ↦ ?_
      exact reads_of_declared hp hshape hq
  case h_2 hkeyword =>
    have hshape : shape.isChoice = false := by simp [Shape.isChoice, hkeyword]
    refine (readNames_meets shape.body).bind fun names _ ↦ ?_
    split
    · refine (declareConstants_meets hp.wellFormed _ _).bind fun q hq ↦ ?_
      exact reads_of_declared hp hshape hq
    · rfl
  case h_3 hkeyword =>
    have hshape : shape.isChoice = false := by simp [Shape.isChoice, hkeyword]
    refine (readNames_meets shape.body).bind fun names _ ↦ ?_
    split
    · rfl
    · refine (Meets.mapError (Problem.addPredicate_meets hp.wellFormed _)).bind fun ⟨_, q⟩ hq ↦ ?_
      exact reads_of_declared hp hshape hq
  case h_4 hkeyword =>
    have hshape : shape.isChoice = false := by simp [Shape.isChoice, hkeyword]
    split
    · rfl
    · refine (Meets.mapM fun text _ ↦ readParameter_meets text).bind fun parameters _ ↦ ?_
      refine (readName_meets _).bind fun name _ ↦ ?_
      refine (Meets.mapError (Problem.addOperator_meets hp.wellFormed _)).bind fun ⟨_, q⟩ hq ↦ ?_
      exact reads_of_declared hp hshape hq
  case h_5 hkeyword =>
    have hshape : shape.isChoice = bodyIsChoice shape.body := by simp [Shape.isChoice, hkeyword]
    rw [hshape]
    exact (declareFormula_meets hp .precondition shape.body).bind fun q hq ↦ hq
  case h_6 hkeyword =>
    have hshape : shape.isChoice = bodyIsChoice shape.body := by simp [Shape.isChoice, hkeyword]
    rw [hshape]
    exact (declareFormula_meets hp .effect shape.body).bind fun q hq ↦ hq
  case h_7 hkeyword =>
    have hshape : shape.isChoice = false := by simp [Shape.isChoice, hkeyword]
    refine (readLiteral_meets hp.wellFormed hscope _).bind fun c ⟨hc, _⟩ ↦ ?_
    refine (Meets.mapError (Problem.addInitialAtom_meets hp.wellFormed hc)).bind
      fun ⟨fresh, q⟩ hq ↦ ?_
    cases fresh <;> exact reads_of_declared hp hshape hq
  case h_8 hkeyword =>
    have hshape : shape.isChoice = false := by simp [Shape.isChoice, hkeyword]
    refine (readLiteral_meets hp.wellFormed hscope _).bind fun c ⟨hc, _⟩ ↦ ?_
    refine (Meets.mapError (Problem.addGoal_meets hp.wellFormed hc)).bind fun q hq ↦ ?_
    exact reads_of_declared hp hshape hq
  case h_9 => rfl

/-! ## Lines -/

theorem readLine_meets (hp : Sound p) (line : Option (List Char)) :
    Meets (readLine p line) (fun r ↦ Reads p r.1 (lineIsChoice line))
      (·.isUnknownHandle = false) := by
  cases line with
  | none => rfl
  | some line =>
    rw [readLine]
    split
    · rename_i hempty
      have hchoice : lineIsChoice (some line) = false := by
        rw [lineIsChoice, Option.bind_some, hempty]
        rfl
      exact ⟨hp, by simp [hchoice]⟩
    · split
      · rfl
      · rename_i shape hshape
        have hchoice : lineIsChoice (some line) = shape.isChoice := by
          rw [lineIsChoice, Option.bind_some, hshape]
        rw [hchoice]
        exact declare_meets hp shape

/-- **What reading preserves.** Sound problems are read into sound ones, without coming upon an
unknown handle, and choices come from declarations. -/
theorem readLines_meets (hp : Sound p) (n : Nat) (lines : List (Option (List Char))) :
    Meets (readLines p n lines).problem (fun q ↦ Reads p q (lines.any lineIsChoice))
      (·.cause.isUnknownHandle = false) := by
  induction lines generalizing p n with
  | nil => exact ⟨hp, by simp⟩
  | cons line lines ih =>
    have hline := readLine_meets hp line
    rw [readLines]
    split
    · rename_i cause hcause
      exact hline.of_error hcause
    · rename_i q remark hq
      have hreads := hline.of_ok hq
      refine (ih hreads.sound (n + 1)).mono fun r hr ↦ ⟨hr.sound, ?_⟩
      rw [hr.hasChoice, hreads.hasChoice, List.any_cons, Bool.or_eq_true, or_assoc]

end LiftedPlanning.Declaration
