import Mathlib.Logic.Relation
import LiftedPlanning.Proofs.Declaration.Lexeme
import LiftedPlanning.Proofs.Declaration.Reader
import LiftedPlanning.Proofs.Problem.History

/-!
# Declarations as operations on problems

Reading enters declarations one after the other, and each of them is entered by operations on the
problem whose handles are known and whose names are names as they are written. So a problem that was
read is built by operations like any other one, and beyond that all its names can be written down.
-/

namespace LiftedPlanning.Declaration

open Problem (Edit Answer)
open Relation (ReflTransGen)
open Text

variable {p q : Problem} {edit : Edit} {answer : Answer} {name : String} {names : List String}
  {text body : List Char}

/-! ## Names that are read -/

theorem isName_of_takeName? {rest : List Char} (h : takeName? text = some (body, rest)) :
    isName body = true := by
  cases text with
  | nil => cases h
  | cons c cs =>
    rw [takeName?] at h
    split at h
    · rename_i hc
      obtain ⟨rfl, rfl⟩ := Prod.mk.inj (Option.some.inj h)
      exact isName_cons_iff.mpr ⟨hc, fun d hd ↦ List.mem_takeWhile_imp hd⟩
    · cases h

theorem isName_of_readName (h : readName text = .ok name) : isName name.toList = true := by
  rw [readName] at h
  split at h
  · obtain rfl := Except.ok.inj h
    rwa [String.toList_ofList]
  · cases h

theorem isName_of_readNames (h : readNames body = .ok names) :
    ∀ name ∈ names, isName name.toList = true := by
  intro name hname
  obtain ⟨text, _, hread⟩ := Fallible.exists_left (Fallible.mapM_eq_ok_iff.mp h) hname
  exact isName_of_readName hread

theorem isName_of_parameterShape? {type : List Char}
    (h : parameterShape? text = some (body, type)) : isName body = true := by
  rw [parameterShape?.eq_def] at h
  split at h
  · obtain ⟨⟨taken, rest⟩, htake, h⟩ := Option.bind_eq_some_iff.mp h
    dsimp only at h
    split at h
    · split at h
      · obtain ⟨rfl, -⟩ := Prod.mk.inj (Option.some.inj h)
        exact isName_of_takeName? htake
      · cases h
    · cases h
  · cases h

theorem isName_of_readParameter {parameter : String × String}
    (h : readParameter text = .ok parameter) : isName parameter.1.toList = true := by
  rw [readParameter] at h
  split at h
  · rename_i shape hshape
    obtain rfl := Except.ok.inj h
    rw [String.toList_ofList]
    exact isName_of_parameterShape? hshape
  · cases h

/-! ## Operations with names -/

/-- The names that an operation declares are names as they are written. -/
def IsNamed : Edit → Prop
  | .type name _ | .constant name _ | .predicate name _ => isName name.toList = true
  | .operator name parameters =>
    isName name.toList = true ∧ ∀ parameter ∈ parameters, isName parameter.1.toList = true
  | _ => True

/-- One operation, with known handles and written names. -/
def Enters (p q : Problem) : Prop :=
  ∃ edit answer, p.Permits edit ∧ IsNamed edit ∧ p.perform edit = .ok (answer, q)

theorem declareConstants_enters {type : String} (hnames : ∀ name ∈ names, isName name.toList = true)
    (h : declareConstants p type names = .ok q) : ReflTransGen Enters p q := by
  induction names generalizing p with
  | nil =>
    obtain rfl := Except.ok.inj h
    exact .refl
  | cons name names ih =>
    obtain ⟨hname, hnames⟩ := List.forall_mem_cons.mp hnames
    obtain ⟨⟨c, r⟩, hr, h⟩ := Fallible.bind_eq_ok_iff.mp h
    have hadd := Fallible.mapError_eq_ok_iff.mp hr
    exact .head ⟨.constant name type, .constant c, trivial, hname,
      Fallible.map_eq_ok_iff.mpr ⟨_, hadd, rfl⟩⟩ (ih hnames h)

theorem declareFormula_enters (hp : Sound p) {role : Role}
    (h : declareFormula p role body = .ok q) : Enters p q := by
  rw [declareFormula] at h
  split at h
  · cases h
  · obtain ⟨op, hop, h⟩ := Fallible.bind_eq_ok_iff.mp h
    obtain ⟨f, hf, h⟩ := Fallible.bind_eq_ok_iff.mp h
    have hlt := Catalog.index_lt_of_find (Fallible.mapError_eq_ok_iff.mp hop)
    obtain ⟨schema, hschema⟩ := Catalog.exists_value? hlt
    have hdeclared := ((readFormula_meets hp.wellFormed hschema _).of_ok hf).1
    have hpermits : op.index < p.operators.size ∧ ∀ c ∈ f.conditions, p.declares c = true :=
      ⟨hlt, fun c hc ↦ (hdeclared c hc).1⟩
    have hadd := Fallible.mapError_eq_ok_iff.mp h
    cases role with
    | precondition =>
      exact ⟨.precondition op f, .done, hpermits, trivial,
        Fallible.map_eq_ok_iff.mpr ⟨_, hadd, rfl⟩⟩
    | effect =>
      exact ⟨.effect op f, .done, hpermits, trivial, Fallible.map_eq_ok_iff.mpr ⟨_, hadd, rfl⟩⟩

/-- A declaration that performs one operation and keeps the problem that comes out. -/
theorem enters_of_performed (edit : Edit) {β : Type} {x : Except ProblemError β}
    {entered : β → Answer × Problem} {f : β → Except LineError (Problem × Option String)}
    {remark : Option String} (hpermits : p.Permits edit) (hnamed : IsNamed edit)
    (hperform : p.perform edit = x.map entered)
    (h : (x.mapError LineError.problem >>= f) = .ok (q, remark))
    (hf : ∀ b r, f b = .ok r → (entered b).2 = r.1) : ReflTransGen Enters p q := by
  obtain ⟨b, hb, h⟩ := Fallible.bind_eq_ok_iff.mp h
  refine .single ⟨edit, (entered b).1, hpermits, hnamed, ?_⟩
  rw [hperform, Fallible.mapError_eq_ok_iff.mp hb, ← show (entered b).2 = q from hf b _ h]
  rfl

/-- **A declaration** is entered by operations. -/
theorem declare_enters (hp : Sound p) {shape : Shape} {remark : Option String}
    (h : declare p shape = .ok (q, remark)) : ReflTransGen Enters p q := by
  have hscope : ScopeDeclared p none := nofun
  rw [declare] at h
  split at h
  case h_1 =>
    obtain ⟨names, hread, h⟩ := Fallible.bind_eq_ok_iff.mp h
    have hnames := isName_of_readNames hread
    split at h
    · cases h
    · rename_i name supertypes
      exact enters_of_performed (.type name supertypes) trivial (hnames _ List.mem_cons_self) rfl h
        fun _ _ hr ↦ congrArg Prod.fst (Except.ok.inj hr)
  case h_2 =>
    obtain ⟨names, hread, h⟩ := Fallible.bind_eq_ok_iff.mp h
    have hnames := isName_of_readNames hread
    split at h
    · rename_i type name names hreverse
      obtain ⟨r, hr, h⟩ := Fallible.bind_eq_ok_iff.mp h
      obtain ⟨rfl, -⟩ := Prod.mk.inj (Except.ok.inj h)
      refine declareConstants_enters (fun n hn ↦ hnames n ?_) hr
      rw [← List.mem_reverse, hreverse]
      exact List.mem_cons_of_mem _ (List.mem_reverse.mp hn)
    · cases h
  case h_3 =>
    obtain ⟨names, hread, h⟩ := Fallible.bind_eq_ok_iff.mp h
    have hnames := isName_of_readNames hread
    split at h
    · cases h
    · rename_i name signature
      exact enters_of_performed (.predicate name signature) trivial
        (hnames _ List.mem_cons_self) rfl h fun _ _ hr ↦ congrArg Prod.fst (Except.ok.inj hr)
  case h_4 =>
    split at h
    · cases h
    · obtain ⟨parameters, hparameters, h⟩ := Fallible.bind_eq_ok_iff.mp h
      obtain ⟨name, hname, h⟩ := Fallible.bind_eq_ok_iff.mp h
      have hnamed : ∀ parameter ∈ parameters, isName parameter.1.toList = true := by
        intro parameter hmem
        obtain ⟨text, -, hread⟩ :=
          Fallible.exists_left (Fallible.mapM_eq_ok_iff.mp hparameters) hmem
        exact isName_of_readParameter hread
      exact enters_of_performed (.operator name parameters) trivial
        ⟨isName_of_readName hname, hnamed⟩ rfl h
        fun _ _ hr ↦ congrArg Prod.fst (Except.ok.inj hr)
  case h_5 | h_6 =>
    obtain ⟨r, hr, h⟩ := Fallible.bind_eq_ok_iff.mp h
    obtain ⟨rfl, -⟩ := Prod.mk.inj (Except.ok.inj h)
    exact .single (declareFormula_enters hp hr)
  case h_7 =>
    obtain ⟨c, hc, h⟩ := Fallible.bind_eq_ok_iff.mp h
    have hdeclared := ((readLiteral_meets hp.wellFormed hscope _).of_ok hc).1
    refine enters_of_performed (.initial c) hdeclared trivial rfl h ?_
    rintro ⟨fresh, r⟩ _ hr
    cases fresh <;> exact congrArg Prod.fst (Except.ok.inj hr)
  case h_8 =>
    obtain ⟨c, hc, h⟩ := Fallible.bind_eq_ok_iff.mp h
    have hdeclared := ((readLiteral_meets hp.wellFormed hscope _).of_ok hc).1
    exact enters_of_performed (.goal c) hdeclared trivial rfl h
      fun _ _ hr ↦ congrArg Prod.fst (Except.ok.inj hr)
  case h_9 => cases h

theorem readLine_enters (hp : Sound p) {line : Option (List Char)} {remark : Option String}
    (h : readLine p line = .ok (q, remark)) : ReflTransGen Enters p q := by
  cases line with
  | none => cases h
  | some line =>
    rw [readLine] at h
    split at h
    · obtain ⟨rfl, -⟩ := Prod.mk.inj (Except.ok.inj h)
      exact .refl
    · split at h
      · cases h
      · exact declare_enters hp h

/-- **Reading** is a sequence of operations. -/
theorem readLines_enters (hp : Sound p) {n : Nat} {lines : List (Option (List Char))}
    (h : (readLines p n lines).problem = .ok q) : ReflTransGen Enters p q := by
  induction lines generalizing p n with
  | nil =>
    obtain rfl := Except.ok.inj h
    exact .refl
  | cons line lines ih =>
    rw [readLines] at h
    split at h
    · cases h
    · rename_i r remark hline
      exact (readLine_enters hp hline).trans (ih ((readLine_meets hp line).of_ok hline).sound h)

/-! ## What the operations preserve -/

/-- The names in a problem are names as they are written. -/
structure Spelled (p : Problem) : Prop where
  constants : ∀ name ∈ p.constants.names, isName name.toList = true
  predicates : ∀ name ∈ p.predicates.names, isName name.toList = true
  operators : ∀ name ∈ p.operators.names, isName name.toList = true
  parameters : ∀ parameter ∈ p.parameters, isName parameter.1.toList = true

theorem spelled_empty : Spelled .empty :=
  ⟨List.forall_mem_nil _, List.forall_mem_nil _, List.forall_mem_nil _, List.forall_mem_nil _⟩

theorem forall_names_of_insert {α : Type} {c d : Catalog α} {a : α} {P : String → Prop}
    (hname : P name) (hc : ∀ n ∈ c.names, P n) (h : c.insert name a = .ok d) :
    ∀ n ∈ d.names, P n := by
  obtain ⟨-, rfl⟩ := Catalog.insert_eq_ok_iff.mp h
  rw [Catalog.names, List.map_append]
  exact List.forall_mem_append.mpr ⟨hc, List.forall_mem_singleton.mpr hname⟩

theorem Spelled.demand (hp : Spelled p) {role : Role} {op : OperatorId} {f : Formula} :
    Spelled (p.demand role op f) := by
  refine { hp with operators := ?_ }
  rw [Problem.demand, Catalog.names, Catalog.entries_update_map fun _ ↦ rfl]
  exact hp.operators

theorem Spelled.perform (hp : Spelled p) (hedit : IsNamed edit)
    (h : p.perform edit = .ok (answer, q)) : Spelled q := by
  cases edit <;> obtain ⟨r, hr, heq⟩ := Fallible.map_eq_ok_iff.mp h <;>
    obtain ⟨rfl, rfl⟩ := Prod.mk.inj heq
  case type =>
    obtain ⟨_, _, _, _, heq⟩ := Problem.addType_eq_ok_iff.mp hr
    rw [id_eq, ← (Prod.mk.inj heq).2]
    exact { hp with }
  case constant =>
    obtain ⟨_, _, _, hinsert, heq⟩ := Problem.addConstant_eq_ok_iff.mp hr
    rw [id_eq, ← (Prod.mk.inj heq).2]
    exact { hp with constants := forall_names_of_insert hedit hp.constants hinsert }
  case predicate =>
    obtain ⟨_, _, _, hinsert, heq⟩ := Problem.addPredicate_eq_ok_iff.mp hr
    rw [id_eq, ← (Prod.mk.inj heq).2]
    exact { hp with predicates := forall_names_of_insert hedit hp.predicates hinsert }
  case operator =>
    obtain ⟨typed, htyped, _, hinsert, heq⟩ := Problem.addOperator_eq_ok_iff.mp hr
    have hnames := Problem.map_fst_typedParameters htyped
    rw [id_eq, ← (Prod.mk.inj heq).2]
    refine { hp with
      operators := forall_names_of_insert hedit.1 hp.operators hinsert
      parameters := List.forall_mem_append.mpr ⟨hp.parameters, fun parameter hmem ↦ ?_⟩ }
    obtain ⟨source, hsource, hname⟩ := List.mem_map.mp (hnames ▸ List.mem_map_of_mem hmem)
    exact hname ▸ hedit.2 source hsource
  case precondition | effect =>
    obtain ⟨_, _, rfl⟩ := Problem.addFormula_eq_ok_iff.mp hr
    exact hp.demand
  case initial =>
    obtain ⟨_, _, _, _, heq⟩ := Problem.addInitialAtom_eq_ok_iff.mp hr
    split at heq <;> rw [id_eq, ← (Prod.mk.inj heq).2]
    · exact hp
    · exact { hp with }
  case goal =>
    obtain ⟨_, _, rfl⟩ := Problem.addGoal_eq_ok_iff.mp hr
    exact { hp with }

/-- What operators demand and bring about are conjunctions, to which more can be added. -/
def Conjunctive (p : Problem) : Prop :=
  ∀ op schema, p.operator? op = some schema → ∀ role, ∃ fs, schema.formula role = .conj fs

theorem conjunctive_empty : Conjunctive .empty := fun _ _ h ↦ by
  simp [Problem.empty, Problem.operator?, Catalog.value?] at h

theorem Conjunctive.keeps (hp : Conjunctive p) (h : p.Keeps q) : Conjunctive q := by
  intro op schema hop role
  rcases h.new op schema hop with hold | htruth
  · exact hp op schema hold role
  · exact ⟨[], htruth role⟩

theorem Conjunctive.demand (hp : Conjunctive p) {role : Role} {op : OperatorId} {f : Formula} :
    Conjunctive (p.demand role op f) := by
  intro op' schema hop role'
  rcases Problem.exists_of_operator?_demand hop with hold | ⟨before, -, hbefore, rfl⟩
  · exact hp op' schema hold role'
  · obtain ⟨fs, hfs⟩ := hp op before hbefore role'
    rw [Operator.formula_demand]
    split
    · exact ⟨fs ++ [f], by rw [hfs, Formula.and]⟩
    · exact ⟨fs, hfs⟩

theorem Conjunctive.perform (hp : Conjunctive p) (hwell : p.WellFormed)
    (h : p.perform edit = .ok (answer, q)) : Conjunctive q := by
  cases edit
  case precondition | effect =>
    obtain ⟨r, hr, heq⟩ := Fallible.map_eq_ok_iff.mp h
    obtain ⟨rfl, rfl⟩ := Prod.mk.inj heq
    obtain ⟨_, _, rfl⟩ := Problem.addFormula_eq_ok_iff.mp hr
    exact hp.demand
  all_goals exact hp.keeps (Problem.keeps_of_perform hwell (fun _ _ ↦ rfl) h)

/-! ## Problems that were read -/

/-- What is known of a problem that was read: it is consistent and has its variables in scope, its
names can be written, and its formulas can be extended. -/
structure Legible (p : Problem) : Prop where
  consistent : p.Consistent
  scopes : p.Scoped
  spelled : Spelled p
  conjunctive : Conjunctive p

theorem invariants_of_enters (h : ReflTransGen Enters .empty p) :
    p.IsBuilt ∧ Spelled p ∧ Conjunctive p := by
  induction h with
  | refl => exact ⟨.empty, spelled_empty, conjunctive_empty⟩
  | tail _ hstep ih =>
    obtain ⟨edit, answer, hpermits, hnamed, hperform⟩ := hstep
    obtain ⟨hbuilt, hspelled, hconjunctive⟩ := ih
    exact ⟨.step hbuilt hpermits hperform, hspelled.perform hnamed hperform,
      hconjunctive.perform hbuilt.consistent.toWellFormed hperform⟩

theorem legible_of_read {bytes : List UInt8} (hp : (read bytes).problem = .ok p) : Legible p where
  consistent := (invariants_of_enters (readLines_enters sound_empty hp)).1.consistent
  scopes := ((readLines_meets sound_empty 1 _).of_ok hp).sound.scopes
  spelled := (invariants_of_enters (readLines_enters sound_empty hp)).2.1
  conjunctive := (invariants_of_enters (readLines_enters sound_empty hp)).2.2

end LiftedPlanning.Declaration
