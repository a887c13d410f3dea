import LiftedPlanning.Proofs.Eligibility
import LiftedPlanning.Proofs.Mapping

/-!
# Rules of simple operators

The encoding needs the precondition and the effect of every operator that can be selected to be
conjunctions of conditions over its own parameters. Its rules are then exactly these conditions.
-/

namespace LiftedPlanning

open Cnf (Assignment Clause Literal)
open Cnf.Assignment

namespace Encoding

variable {p : Problem} {g : Grounding} {l : Layout} {m : Assignment}

/-! ## Rules -/

def ruleOf (id : OperatorId) (op : Operator) (role : Role) (c : Condition) : Rule :=
  ⟨id, op, role, c, ⟨id, Mapping.pairsOf op c⟩⟩

def rulesOf (id : OperatorId) (op : Operator) : List Rule :=
  [.precondition, .effect].flatMap fun role ↦ (op.formula role).flat.map (ruleOf id op role)

theorem formulaRules_eq_ok_iff {id : OperatorId} {name : String} {op : Operator} {role : Role}
    {rs : List Rule} :
    formulaRules p id name op role = .ok rs ↔
      ((op.formula role).residual = none ∧ ∀ c ∈ (op.formula role).flat, op.Scopes c) ∧
        rs = (op.formula role).flat.map (ruleOf id op role) := by
  rw [formulaRules]
  split
  · rename_i h
    simp [Formula.flat?_eq_none_iff.mp h]
  · rename_i cs h
    obtain ⟨hr, rfl⟩ := Formula.flat?_eq_some_iff.mp h
    rw [Fallible.mapM_eq_ok_map_iff (q := op.Scopes) (g := ruleOf id op role)]
    · simp [hr]
    · intro c _ r
      split
      · rename_i mapping hm
        obtain ⟨hs, rfl⟩ := Mapping.ofCondition_eq_ok_iff.mp hm
        simp [hs, ruleOf, eq_comm]
      · rename_i cause hm
        have hs : ¬op.Scopes c := fun hs ↦ by
          rw [Mapping.ofCondition_eq_ok_iff.mpr ⟨hs, rfl⟩] at hm
          cases hm
        simp [hs]

theorem operatorRules_eq_ok_iff {id : OperatorId} {name : String} {op : Operator} {rs : List Rule} :
    operatorRules p id name op = .ok rs ↔ op.Simple ∧ rs = rulesOf id op := by
  simp only [operatorRules, Fallible.bind_eq_ok_iff, formulaRules_eq_ok_iff, pure, Except.pure,
    Except.ok.injEq]
  constructor
  · rintro ⟨_, ⟨hpre, rfl⟩, _, ⟨heff, rfl⟩, rfl⟩
    exact ⟨Role.forall_iff.mpr ⟨hpre, heff⟩, by simp [rulesOf]⟩
  · rintro ⟨hs, rfl⟩
    exact ⟨_, ⟨hs .precondition, rfl⟩, _, ⟨hs .effect, rfl⟩, by simp [rulesOf]⟩

theorem rules_eq_ok_iff {e : Eligibility} {rs : List Rule} :
    rules p e = .ok rs ↔
      (∀ entry ∈ p.namedOperators, e.isSelectable entry.1 = true → entry.2.2.Simple) ∧
        rs = (p.namedOperators.filter fun entry ↦ e.isSelectable entry.1).flatMap fun entry ↦
          rulesOf entry.1 entry.2.2 := by
  simp only [rules, Fallible.bind_eq_ok_iff, pure, Except.pure, Except.ok.injEq]
  simp only [Fallible.mapM_eq_ok_map_iff (f := fun (entry : OperatorId × String × Operator) ↦
      operatorRules p entry.1 entry.2.1 entry.2.2) (q := fun entry ↦ entry.2.2.Simple)
      (g := fun entry ↦ rulesOf entry.1 entry.2.2) fun _ _ _ ↦ operatorRules_eq_ok_iff,
    List.mem_filter, and_imp]
  constructor
  · rintro ⟨_, ⟨hs, rfl⟩, rfl⟩
    exact ⟨hs, by rw [List.flatMap_def]⟩
  · rintro ⟨hs, rfl⟩
    exact ⟨_, ⟨hs, rfl⟩, by rw [List.flatMap_def]⟩

/-- A rule of the encoding: a condition of an operator that can be selected. -/
structure IsRule (p : Problem) (e : Eligibility) (r : Rule) : Prop where
  declared : p.operator? r.operator = some r.schema
  selectable : e.isSelectable r.operator = true
  condition : r.condition ∈ (r.schema.formula r.role).flat
  scope : r.schema.Scopes r.condition
  mapping : r.mapping = ⟨r.operator, Mapping.pairsOf r.schema r.condition⟩

theorem mem_rules_iff {e : Eligibility} {rs : List Rule} (h : rules p e = .ok rs) {r : Rule} :
    r ∈ rs ↔ IsRule p e r := by
  obtain ⟨hsimple, rfl⟩ := rules_eq_ok_iff.mp h
  simp only [List.mem_flatMap, List.mem_filter, Prod.exists]
  constructor
  · rintro ⟨id, name, op, ⟨hop, hsel⟩, hr⟩
    obtain ⟨role, _, hr⟩ := List.mem_flatMap.mp hr
    obtain ⟨c, hc, rfl⟩ := List.mem_map.mp hr
    exact ⟨Problem.operator?_eq_some_iff.mpr ⟨name, hop⟩, hsel, hc,
      (hsimple _ hop hsel role).2 c hc, rfl⟩
  · rintro ⟨hop, hsel, hc, _, hm⟩
    obtain ⟨name, hop⟩ := Problem.operator?_eq_some_iff.mp hop
    refine ⟨r.operator, name, r.schema, ⟨hop, hsel⟩, List.mem_flatMap.mpr ⟨r.role, ?_, ?_⟩⟩
    · cases r.role <;> simp
    · exact List.mem_map.mpr ⟨r.condition, hc, by rw [ruleOf, ← hm]⟩

end Encoding

end LiftedPlanning
