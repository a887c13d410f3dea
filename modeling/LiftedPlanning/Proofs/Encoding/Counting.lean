import LiftedPlanning.Proofs.Encoding.Successor

/-!
# Counting selections

For a block in which all variables have values, the selection clauses are a statement about numbers.
At each position of an operator one constant is selected if the operator is active, and none if it
is not; a position without eligible constants has none to select, so that its operator cannot be
active. Under the sequential semantics, and only there, the number of active operators is bounded
by one.
-/

namespace LiftedPlanning

open Cnf (Assignment Literal)
open Cnf.Assignment

namespace Layout

/-- The number of eligible constants that are selected at a position. -/
def selectionsAt (l : Layout) (m : Assignment) (op : OperatorId) (position : Nat) : Nat :=
  (List.range (l.eligibility.eligible op position).length).countP fun i ↦
    m.satisfies (l.selected op position i)

def activeCount (l : Layout) (m : Assignment) : Nat :=
  l.operators.countP fun op ↦ m.satisfies (l.active op)

variable {l : Layout} {m : Assignment} {op : OperatorId} {position : Nat}

theorem map_snd_choices :
    (l.choices op position).map (·.2) =
      (List.range (l.eligibility.eligible op position).length).map (l.selected op position) := by
  rw [choices, List.map_map, List.range_eq_range', ← List.zipIdx_map_snd 0, List.map_map]
  rfl

theorem length_filter_choices :
    (((l.choices op position).map (·.2)).filter m.satisfies).length =
      l.selectionsAt m op position := by
  rw [map_snd_choices, ← List.countP_eq_length_filter, List.countP_map]
  rfl

theorem length_filter_active :
    ((l.operators.map l.active).filter m.satisfies).length = l.activeCount m := by
  rw [← List.countP_eq_length_filter, List.countP_map]
  rfl

theorem selectionsAt_eq_zero (h : l.eligibility.eligible op position = []) :
    l.selectionsAt m op position = 0 := by
  rw [selectionsAt, h]
  rfl

end Layout

namespace Encoding

variable {l : Layout} {m : Assignment}

theorem models_exclusions_iff_of_decides {ls : List Literal} (hd : ∀ s ∈ ls, m.Decides s) :
    m.Models (exclusions ls) ↔ (ls.filter m.satisfies).length ≤ 1 :=
  ⟨length_filter_le_one, models_exclusions_of_length_le_one hd⟩

theorem models_operatorClauses_iff_of_decided (hd : l.Decided m) {op : OperatorId}
    (hop : op ∈ l.operators) :
    m.Models (operatorClauses l op) ↔ ∀ position ∈ l.positions op,
      l.selectionsAt m op position = if m.satisfies (l.active op) then 1 else 0 := by
  have hop := Layout.mem_operators_iff.mp hop
  rw [models_operatorClauses_iff]
  simp only [Layout.positions, List.mem_range]
  refine forall₂_congr fun position _ ↦ ?_
  rw [← Layout.length_filter_choices]
  refine ⟨length_filter_of_models, models_positionClauses_of_decides (hd.active op hop) ?_⟩
  exact List.forall_mem_map.mpr (hd.selected op hop position)

/-- **The selection clauses count.** They are satisfied by a total block exactly if at every
position of an operator one selection is true while the operator is active and none while it is not,
and if, under the sequential semantics, at most one operator is active. So an operator is not active
if one of its positions has no eligible constant. -/
theorem models_selectionClauses_iff_count {semantics : StepSemantics}
    (htotal : ∀ v < l.size, (m.value? v).isSome = true) :
    (m.Models (selectionClauses l semantics) ↔
      (∀ op ∈ l.operators, ∀ position ∈ l.positions op,
        l.selectionsAt m op position = if m.satisfies (l.active op) then 1 else 0) ∧
      (semantics = .sequential → l.activeCount m ≤ 1)) ∧
    (m.Models (selectionClauses l semantics) → ∀ op ∈ l.operators, ∀ position ∈ l.positions op,
      l.eligibility.eligible op position = [] → m.satisfies (l.active op) = false) := by
  have hd := Layout.decided_of_isSome htotal
  have hactive : ∀ s ∈ l.operators.map l.active, m.Decides s :=
    List.forall_mem_map.mpr fun op hop ↦ hd.active op (Layout.mem_operators_iff.mp hop)
  have hiff : m.Models (selectionClauses l semantics) ↔
      (∀ op ∈ l.operators, ∀ position ∈ l.positions op,
        l.selectionsAt m op position = if m.satisfies (l.active op) then 1 else 0) ∧
      (semantics = .sequential → l.activeCount m ≤ 1) := by
    rw [models_selectionClauses_iff, ← Layout.length_filter_active,
      ← models_exclusions_iff_of_decides hactive]
    exact and_congr_left' (forall₂_congr fun op hop ↦ models_operatorClauses_iff_of_decided hd hop)
  refine ⟨hiff, fun h op hop position hposition hempty ↦ ?_⟩
  have hcount := (hiff.mp h).1 op hop position hposition
  rw [Layout.selectionsAt_eq_zero hempty] at hcount
  by_contra hne
  rw [if_pos (Bool.eq_true_of_not_eq_false hne)] at hcount
  cases hcount

/-- The first door is opened. No bell is known to ring, so nothing is eligible for ringing. -/
theorem models_selectionClauses_doors :
    let known := [⟨0, ⟨0⟩, [⟨0⟩], "open(a)"⟩].foldl Roster.insert .empty
    let l := layoutOf doors { doorsGrounding with actionTable := known } .grounded
    let m : Assignment := ⟨#[true, false, true, false, false, false].map some⟩
    (∀ v < l.size, (m.value? v).isSome = true) ∧ m.Models (selectionClauses l .sequential) ∧
      l.eligibility.eligible ⟨1⟩ 0 = [] ∧ m.satisfies (l.active ⟨1⟩) = false := by
  intro known l m
  have htotal : ∀ v < l.size, (m.value? v).isSome = true := by decide +kernel
  obtain ⟨hiff, hinactive⟩ := @models_selectionClauses_iff_count l m .sequential htotal
  have hmodels := hiff.mpr (by decide +kernel)
  have hnone : l.eligibility.eligible ⟨1⟩ 0 = [] := by decide +kernel
  exact ⟨htotal, hmodels, hnone,
    hinactive hmodels ⟨1⟩ (by decide +kernel) 0 (by decide +kernel) hnone⟩

end Encoding

end LiftedPlanning
