import Mathlib.Tactic.ByContra
import LiftedPlanning.Proofs.Cnf.Satisfaction
import LiftedPlanning.Proofs.Layout.Tables

/-!
# What a block says about operators

In a block of variables an operator runs with arguments if it is active and if, at each of its
positions, the argument is the only constant that is selected. All the other constants may be open
there as well as refused.
-/

namespace LiftedPlanning

open Cnf (Assignment Literal)

theorem Handle.mem_first_iff {kind : HandleKind} {n : Nat} {h : Handle kind} :
    h ∈ first n ↔ h.index < n := by
  rw [first, List.mem_map]
  constructor
  · rintro ⟨i, hi, rfl⟩
    exact List.mem_range.mp hi
  · exact fun hi ↦ ⟨h.index, List.mem_range.mpr hi, rfl⟩

theorem Handle.nodup_first {kind : HandleKind} (n : Nat) : (first n : List (Handle kind)).Nodup :=
  List.Pairwise.map Handle.mk (fun _ _ hne he ↦ hne (Handle.mk.inj he)) List.nodup_range

namespace Layout

variable {l : Layout} {m : Assignment} {op : OperatorId} {position : Nat} {c : ConstantId}

theorem mem_operators_iff : op ∈ l.operators ↔ op.index < l.operatorCount :=
  Handle.mem_first_iff

theorem mem_atoms_iff {a : AtomId} : a ∈ l.atoms ↔ a.index < l.atomCount :=
  Handle.mem_first_iff

theorem mem_choices_iff {choice : ConstantId × Literal} :
    choice ∈ l.choices op position ↔
      ∃ i, (l.eligibility.eligible op position)[i]? = some choice.1 ∧
        choice.2 = l.selected op position i := by
  rw [choices, List.mem_map]
  constructor
  · rintro ⟨⟨c, i⟩, h, rfl⟩
    exact ⟨i, List.mem_zipIdx_iff_getElem?.mp h, rfl⟩
  · rintro ⟨i, h, he⟩
    exact ⟨(choice.1, i), List.mem_zipIdx_iff_getElem?.mpr h, Prod.ext rfl he.symm⟩

theorem fst_mem_eligible {choice : ConstantId × Literal} (h : choice ∈ l.choices op position) :
    choice.1 ∈ l.eligibility.eligible op position := by
  obtain ⟨i, hi, _⟩ := mem_choices_iff.mp h
  exact List.mem_of_getElem? hi

theorem lt_arity_of_mem_eligible (h : c ∈ l.eligibility.eligible op position) :
    position < l.eligibility.arity op := by
  by_contra hn
  rw [Eligibility.eligible, List.getElem?_eq_none (Nat.le_of_not_lt hn)] at h
  cases h

theorem exists_filter_choices (hn : (l.eligibility.eligible op position).Nodup)
    (h : c ∈ l.eligibility.eligible op position) :
    ∃ literal, (l.choices op position).filter (fun choice ↦ choice.1 = c) = [(c, literal)] := by
  have hmap : ((l.choices op position).filter fun choice ↦ choice.1 = c).map (·.1) = [c] := by
    have hfst : (l.choices op position).map (·.1) = l.eligibility.eligible op position := by
      rw [choices, List.map_map]
      exact List.zipIdx_map_fst 0 _
    have hfilter := List.filter_map (f := Prod.fst) (p := fun d ↦ decide (d = c))
      (l := l.choices op position)
    rw [hfst, List.filter_eq, hn.count, if_pos h] at hfilter
    exact hfilter.symm
  obtain ⟨choice, hc, he⟩ := List.map_eq_singleton_iff.mp hmap
  exact ⟨choice.2, hc.trans (by rw [← he])⟩

/-! ## Selections -/

/-- A constant is the only one selected at a position. -/
def Selects (l : Layout) (m : Assignment) (op : OperatorId) (position : Nat) (c : ConstantId) :
    Prop :=
  ∃ literal, (l.choices op position).filter (fun choice ↦ m.satisfies choice.2) = [(c, literal)]

theorem Selects.eq_of_satisfies (h : l.Selects m op position c) {choice : ConstantId × Literal}
    (hc : choice ∈ l.choices op position) (hs : m.satisfies choice.2 = true) : choice.1 = c := by
  obtain ⟨literal, h⟩ := h
  have hm : choice ∈ (l.choices op position).filter fun choice ↦ m.satisfies choice.2 :=
    List.mem_filter.mpr ⟨hc, hs⟩
  rw [h, List.mem_singleton] at hm
  rw [hm]

theorem Selects.exists_choice (h : l.Selects m op position c) :
    ∃ literal, (c, literal) ∈ l.choices op position ∧ m.satisfies literal = true := by
  obtain ⟨literal, h⟩ := h
  have hm : (c, literal) ∈ (l.choices op position).filter fun choice ↦ m.satisfies choice.2 := by
    rw [h]
    exact List.mem_singleton_self _
  exact ⟨literal, List.mem_filter.mp hm⟩

theorem Selects.mem_eligible (h : l.Selects m op position c) :
    c ∈ l.eligibility.eligible op position := by
  obtain ⟨literal, hc, _⟩ := h.exists_choice
  exact fst_mem_eligible hc

theorem Selects.unique {d : ConstantId} (hc : l.Selects m op position c)
    (hd : l.Selects m op position d) : c = d := by
  obtain ⟨literal, hm, hs⟩ := hc.exists_choice
  exact hd.eq_of_satisfies hm hs

/-! ## Atoms -/

/-- The literal that gives an atom a sign. -/
def signed (l : Layout) (a : AtomId) (negated : Bool) : Literal :=
  if negated then (l.holds a).negate else l.holds a

theorem negate_signed (a : AtomId) (negated : Bool) :
    (l.signed a negated).negate = l.signed a (!negated) := by
  cases negated <;> simp [signed]

theorem satisfies_signed_iff {a : AtomId} {negated : Bool} :
    m.satisfies (l.signed a negated) = true ↔ m.value? (l.holds a).var = some (!negated) := by
  cases negated <;> exact Assignment.satisfies_iff

/-! ## Running operators -/

/-- An operator runs with arguments in a block. -/
structure Runs (l : Layout) (m : Assignment) (op : OperatorId) (args : List ConstantId) : Prop where
  active : m.satisfies (l.active op) = true
  length : args.length = l.eligibility.arity op
  selects : ∀ position c, args[position]? = some c → l.Selects m op position c

def ActiveRun (l : Layout) (m : Assignment) : Prop :=
  ∀ op, op.index < l.operatorCount → m.satisfies (l.active op) = true → ∃ args, l.Runs m op args

theorem Runs.exists_argument {args : List ConstantId} (h : l.Runs m op args)
    (hp : position < l.eligibility.arity op) :
    ∃ c, args[position]? = some c ∧ l.Selects m op position c := by
  have hlt : position < args.length := h.length ▸ hp
  exact ⟨args[position], List.getElem?_eq_getElem hlt,
    h.selects _ _ (List.getElem?_eq_getElem hlt)⟩

theorem Runs.getElem?_of_satisfies {args : List ConstantId} (h : l.Runs m op args)
    {choice : ConstantId × Literal} (hc : choice ∈ l.choices op position)
    (hs : m.satisfies choice.2 = true) : args[position]? = some choice.1 := by
  obtain ⟨c, ha, hsel⟩ := h.exists_argument (lt_arity_of_mem_eligible (fst_mem_eligible hc))
  rw [ha, hsel.eq_of_satisfies hc hs]

theorem Runs.unique {args args' : List ConstantId} (h : l.Runs m op args)
    (h' : l.Runs m op args') : args = args' := by
  refine List.ext_getElem (h.length.trans h'.length.symm) fun i hi hi' ↦ ?_
  exact (h.selects i _ (List.getElem?_eq_getElem hi)).unique
    (h'.selects i _ (List.getElem?_eq_getElem hi'))

end Layout

end LiftedPlanning
