import Mathlib.Data.List.Pairwise
import LiftedPlanning.Encoding.Selection
import LiftedPlanning.Proofs.Fallible
import LiftedPlanning.Proofs.Layout

/-!
# Satisfied selection clauses

The selection clauses make every active operator run with arguments. Where all the variables of a
block have values, they say no more than that: active operators run, inactive ones select nothing,
and under the sequential semantics no two operators are active.
-/

namespace LiftedPlanning.Encoding

open Cnf (Assignment Clause Literal)
open Cnf.Assignment

variable {m : Assignment} {l : Layout}

/-! ## Exclusions -/

theorem models_exclusions_iff {ls : List Literal} :
    m.Models (exclusions ls) ↔
      ls.Pairwise fun s t ↦ m.satisfiesClause [s.negate, t.negate] = true := by
  induction ls with
  | nil => simp [exclusions]
  | cons s rest ih =>
    rw [exclusions, Models.append_iff, Models.map_iff, ih, List.pairwise_cons]

theorem models_choiceClauses_iff {active : Literal} {ls : List Literal} :
    m.Models (choiceClauses active ls) ↔
      (∀ s ∈ ls, m.satisfiesClause [s.negate, active] = true) ∧ m.Models (exclusions ls) := by
  induction ls with
  | nil => simp [choiceClauses, exclusions]
  | cons s rest ih =>
    rw [choiceClauses, exclusions, Models.append_iff, Models.cons_iff, Models.append_iff, ih,
      List.forall_mem_cons]
    tauto

theorem satisfiesClause_of_models_exclusions {ls : List Literal} (h : m.Models (exclusions ls))
    {s t : Literal} (hs : s ∈ ls) (ht : t ∈ ls) (hne : s ≠ t) :
    m.satisfiesClause [s.negate, t.negate] = true := by
  have : Std.Symm fun s t : Literal ↦ m.satisfiesClause [s.negate, t.negate] = true :=
    ⟨fun s t h ↦ by
      rw [satisfiesClause_cons, satisfiesClause_singleton] at h ⊢
      exact h.symm⟩
  exact (models_exclusions_iff.mp h).forall hs ht hne

theorem eq_of_models_exclusions {ls : List Literal} (h : m.Models (exclusions ls)) {s t : Literal}
    (hs : s ∈ ls) (ht : t ∈ ls) (hss : m.satisfies s = true) (hst : m.satisfies t = true) :
    s = t := by
  by_contra hne
  have hc := satisfiesClause_of_models_exclusions h hs ht hne
  rw [satisfiesClause_cons, satisfiesClause_singleton] at hc
  exact hc.elim (not_satisfies_negate hss) (not_satisfies_negate hst)

theorem length_filter_le_one {ls : List Literal} (h : m.Models (exclusions ls)) :
    (ls.filter m.satisfies).length ≤ 1 := by
  have hp : (ls.filter m.satisfies).Pairwise fun _ _ ↦ False := by
    refine List.pairwise_filter.mpr ((models_exclusions_iff.mp h).imp ?_)
    intro s t hc hs ht
    rcases satisfiesClause_cons.mp hc with hn | hn
    · exact not_satisfies_negate hs hn
    · exact not_satisfies_negate ht (satisfiesClause_singleton.mp hn)
  match hls : ls.filter m.satisfies with
  | [] => simp
  | [_] => simp
  | s :: t :: rest =>
    rw [hls] at hp
    exact (List.rel_of_pairwise_cons hp List.mem_cons_self).elim

theorem models_exclusions_of_length_le_one {ls : List Literal} (hd : ∀ s ∈ ls, m.Decides s)
    (h : (ls.filter m.satisfies).length ≤ 1) : m.Models (exclusions ls) := by
  have hp : (ls.filter m.satisfies).Pairwise fun _ _ ↦ False := by
    match hls : ls.filter m.satisfies with
    | [] => exact .nil
    | [_] => exact List.pairwise_singleton _ _
    | _ :: _ :: _ =>
      rw [hls] at h
      simp at h
  refine models_exclusions_iff.mpr ((List.pairwise_filter.mp hp).imp_of_mem ?_)
  intro s t hs ht hn
  rw [satisfiesClause_cons, satisfiesClause_singleton, (hd s hs).satisfies_negate_iff,
    (hd t ht).satisfies_negate_iff]
  tauto

/-! ## Positions -/

theorem models_positionClauses_iff {active : Literal} {ls : List Literal} :
    m.Models (positionClauses active ls) ↔ m.satisfiesClause (active.negate :: ls) = true ∧
      (∀ s ∈ ls, m.satisfiesClause [s.negate, active] = true) ∧ m.Models (exclusions ls) := by
  rw [positionClauses, Models.cons_iff, models_choiceClauses_iff]

/-- An active operator selects one choice, an inactive one none. -/
theorem length_filter_of_models {active : Literal} {ls : List Literal}
    (h : m.Models (positionClauses active ls)) :
    (ls.filter m.satisfies).length = if m.satisfies active then 1 else 0 := by
  obtain ⟨hsome, himp, hex⟩ := models_positionClauses_iff.mp h
  split
  · rename_i ha
    obtain ⟨s, hs, hsat⟩ := satisfiesClause_iff.mp
      ((satisfiesClause_cons.mp hsome).resolve_left (not_satisfies_negate ha))
    refine Nat.le_antisymm (length_filter_le_one hex) ?_
    exact List.length_pos_of_mem (List.mem_filter.mpr ⟨hs, hsat⟩)
  · rename_i ha
    rw [List.length_eq_zero_iff, List.filter_eq_nil_iff]
    intro s hs hsat
    have hact := (satisfiesClause_cons.mp (himp s hs)).resolve_left (not_satisfies_negate hsat)
    exact ha (satisfiesClause_singleton.mp hact)

theorem exists_filter_eq_singleton {active : Literal} {choices : List (ConstantId × Literal)}
    (h : m.Models (positionClauses active (choices.map (·.2)))) (ha : m.satisfies active = true) :
    ∃ choice, choices.filter (fun choice ↦ m.satisfies choice.2) = [choice] := by
  have hone := length_filter_of_models h
  rw [if_pos ha, List.filter_map, List.length_map] at hone
  exact List.length_eq_one_iff.mp hone

theorem models_positionClauses_of_decides {active : Literal} {ls : List Literal}
    (ha : m.Decides active) (hd : ∀ s ∈ ls, m.Decides s)
    (h : (ls.filter m.satisfies).length = if m.satisfies active then 1 else 0) :
    m.Models (positionClauses active ls) := by
  have hle : (ls.filter m.satisfies).length ≤ 1 := by
    rw [h]
    split <;> omega
  refine models_positionClauses_iff.mpr
    ⟨?_, fun s hs ↦ ?_, models_exclusions_of_length_le_one hd hle⟩
  · rw [satisfiesClause_cons, ha.satisfies_negate_iff, satisfiesClause_iff]
    by_cases hact : m.satisfies active = true
    · rw [if_pos hact] at h
      obtain ⟨s, hs⟩ := List.exists_mem_of_length_pos (h ▸ Nat.one_pos)
      exact .inr ⟨s, List.mem_filter.mp hs⟩
    · exact .inl hact
  · rw [satisfiesClause_cons, satisfiesClause_singleton, (hd s hs).satisfies_negate_iff]
    by_cases hact : m.satisfies active = true
    · exact .inr hact
    · rw [if_neg hact, List.length_eq_zero_iff, List.filter_eq_nil_iff] at h
      exact .inl (h s hs)

/-! ## Operators -/

theorem models_operatorClauses_iff {op : OperatorId} :
    m.Models (operatorClauses l op) ↔ ∀ position < l.eligibility.arity op,
      m.Models (positionClauses (l.active op) ((l.choices op position).map (·.2))) := by
  simp only [operatorClauses, Models.flatMap_iff, Layout.positions, List.mem_range]

theorem models_selectionClauses_iff {semantics : StepSemantics} :
    m.Models (selectionClauses l semantics) ↔
      (∀ op ∈ l.operators, m.Models (operatorClauses l op)) ∧
        (semantics = .sequential → m.Models (exclusions (l.operators.map l.active))) := by
  cases semantics <;> simp [selectionClauses, Models.append_iff, Models.flatMap_iff]

/-- **Active operators run.** -/
theorem activeRun_of_models {semantics : StepSemantics}
    (h : m.Models (selectionClauses l semantics)) : l.ActiveRun m := by
  intro op hop ha
  have hpos := models_operatorClauses_iff.mp
    ((models_selectionClauses_iff.mp h).1 op (Layout.mem_operators_iff.mpr hop))
  have hsel : ∀ position ∈ List.range (l.eligibility.arity op), ∃ c, l.Selects m op position c := by
    intro position hp
    obtain ⟨⟨c, literal⟩, hc⟩ :=
      exists_filter_eq_singleton (hpos position (List.mem_range.mp hp)) ha
    exact ⟨c, literal, hc⟩
  obtain ⟨args, hargs⟩ := Fallible.exists_forall₂ hsel
  obtain ⟨hlen, hs⟩ := Fallible.forall₂_range_iff.mp hargs
  exact ⟨args, ha, hlen, hs⟩

theorem active_of_models {semantics : StepSemantics}
    (h : m.Models (selectionClauses l semantics)) {op : OperatorId}
    (hop : op.index < l.operatorCount) {position : Nat} {choice : ConstantId × Literal}
    (hc : choice ∈ l.choices op position) (hs : m.satisfies choice.2 = true) :
    m.satisfies (l.active op) = true := by
  have hlt := Layout.lt_arity_of_mem_eligible (Layout.fst_mem_eligible hc)
  have hpos := models_operatorClauses_iff.mp
    ((models_selectionClauses_iff.mp h).1 op (Layout.mem_operators_iff.mpr hop)) position hlt
  have himp := (models_positionClauses_iff.mp hpos).2.1 _ (List.mem_map_of_mem hc)
  rw [satisfiesClause_cons, satisfiesClause_singleton] at himp
  exact himp.resolve_left (not_satisfies_negate hs)

theorem eq_of_models_sequential (h : m.Models (selectionClauses l .sequential))
    {op op' : OperatorId} (hop : op.index < l.operatorCount) (hop' : op'.index < l.operatorCount)
    (ha : m.satisfies (l.active op) = true) (ha' : m.satisfies (l.active op') = true) :
    op = op' := by
  have hmem : ∀ op : OperatorId, op.index < l.operatorCount →
      l.active op ∈ l.operators.map l.active :=
    fun _ hlt ↦ List.mem_map_of_mem (Layout.mem_operators_iff.mpr hlt)
  exact Layout.active_inj hop hop' (eq_of_models_exclusions
    ((models_selectionClauses_iff.mp h).2 rfl) (hmem op hop) (hmem op' hop') ha ha')

end LiftedPlanning.Encoding
