import Mathlib.Algebra.GroupWithZero.Nat
import LiftedPlanning.Layout

/-!
# Tables in closed form

A running counter hands out the variables of a block one after the other. The counter before an
entry of the tables is then the number of variables of all the entries before, so that an entry can
be computed without the others.
-/

namespace LiftedPlanning

open Cnf (Allocator Literal)

namespace Layout

namespace Tables

variable {α β : Type}

/-! ## Loops that count -/

theorem run_bind (x : StateM Allocator α) (f : α → StateM Allocator β) (a : Allocator) :
    (x >>= f).run a = (f (x.run a).1).run (x.run a).2 :=
  rfl

theorem run_mapM_cons (f : α → StateM Allocator β) (x : α) (xs : List α) (a : Allocator) :
    ((x :: xs).mapM f).run a =
      (((f x).run a).1 :: ((xs.mapM f).run ((f x).run a).2).1,
        ((xs.mapM f).run ((f x).run a).2).2) := by
  rw [List.mapM_cons]
  rfl

theorem length_run_mapM (f : α → StateM Allocator β) (xs : List α) (a : Allocator) :
    ((xs.mapM f).run a).1.length = xs.length := by
  induction xs generalizing a with
  | nil => rfl
  | cons x xs ih => rw [run_mapM_cons, List.length_cons, ih, List.length_cons]

/-- A program that hands out a number of variables, whatever was handed out before. -/
def HandsOut (f : StateM Allocator α) (n : Nat) : Prop :=
  ∀ a, (f.run a).2 = ⟨a.count + n⟩

theorem handsOut_allocate (n : Nat) : HandsOut (allocate n) n :=
  fun _ ↦ rfl

variable {f : α → StateM Allocator β} {size : α → Nat}

/-- A loop hands out what its rounds hand out. -/
theorem HandsOut.mapM (h : ∀ x, HandsOut (f x) (size x)) (xs : List α) :
    HandsOut (xs.mapM f) (xs.map size).sum := by
  induction xs with
  | nil => exact fun _ ↦ rfl
  | cons x xs ih =>
    intro a
    rw [run_mapM_cons, h, ih, List.map_cons, List.sum_cons, Nat.add_assoc]

/-- A round of a loop starts after what the rounds before have handed out. -/
theorem getElem?_run_mapM (h : ∀ x, HandsOut (f x) (size x)) (xs : List α) (a : Allocator)
    (i : Nat) : ((xs.mapM f).run a).1[i]? =
      xs[i]?.map fun x ↦ ((f x).run ⟨a.count + ((xs.take i).map size).sum⟩).1 := by
  induction xs generalizing a i with
  | nil => rfl
  | cons x xs ih =>
    rw [run_mapM_cons]
    cases i with
    | zero => rfl
    | succ i =>
      rw [List.getElem?_cons_succ, ih, h, List.getElem?_cons_succ, List.take_succ_cons,
        List.map_cons, List.sum_cons, Nat.add_assoc]

theorem getElem?_run_mapM_range {f : Nat → StateM Allocator β} {size : Nat → Nat}
    (h : ∀ i, HandsOut (f i) (size i)) {n i : Nat} (hi : i < n) (a : Allocator) :
    (((List.range n).mapM f).run a).1[i]? =
      some ((f i).run ⟨a.count + ((List.range i).map size).sum⟩).1 := by
  rw [getElem?_run_mapM h, List.getElem?_range hi, List.take_range, Nat.min_eq_left (Nat.le_of_lt hi)]
  rfl

/-! ## The variables of a block -/

variable {e : Eligibility} {operators atoms : Nat}

/-- The number of variables of the first positions of an operator. -/
def positionCount (e : Eligibility) (op : OperatorId) (positions : Nat) : Nat :=
  ((List.range positions).map fun position ↦ (e.eligible op position).length).sum

/-- The number of variables of the positions of the first operators. -/
def selectionCount (e : Eligibility) (operators : Nat) : Nat :=
  ((List.range operators).map fun op ↦ positionCount e ⟨op⟩ (e.arity ⟨op⟩)).sum

theorem map_range_getD (xss : List (List α)) (f : List α → β) :
    (List.range xss.length).map (fun i ↦ f ((xss[i]?).getD [])) = xss.map f := by
  refine List.ext_getElem (by simp) fun i hi _ ↦ ?_
  have hlt : i < xss.length := by simpa using hi
  simp [List.getElem?_eq_getElem hlt]

theorem selectionCount_length (e : Eligibility) :
    selectionCount e e.sets.length = (e.sets.flatten.map List.length).sum := by
  have hpositions : ∀ op, positionCount e op (e.arity op) = (e.setsOf op).flatten.length :=
    fun op ↦ (congrArg List.sum (map_range_getD (e.setsOf op) List.length)).trans
      List.length_flatten.symm
  have hoperators := map_range_getD e.sets fun sets ↦ sets.flatten.length
  simp only [selectionCount, hpositions, Eligibility.setsOf, hoperators]
  rw [← List.length_flatten, List.flatten_flatten, List.length_flatten, List.map_map]
  rfl

theorem handsOut_ones (n : Nat) : HandsOut ((List.range n).mapM fun _ ↦ allocate 1) n := by
  have h := HandsOut.mapM (fun _ ↦ handsOut_allocate 1) (List.range n)
  rwa [List.map_const', List.sum_replicate_nat, Nat.mul_one, List.length_range] at h

theorem handsOut_allotPositions (op : OperatorId) :
    HandsOut (allotPositions allocate e op) (positionCount e op (e.arity op)) :=
  HandsOut.mapM (fun _ ↦ handsOut_allocate _) _

/-- The tables, with the counter before each of the loops. -/
theorem allotted_eq (e : Eligibility) (operators atoms : Nat) :
    allotted e operators atoms =
      { active := (((List.range operators).mapM fun _ ↦ allocate 1).run ⟨0⟩).1
        selected := (((List.range operators).mapM fun op ↦
          allotPositions allocate e ⟨op⟩).run ⟨operators⟩).1
        firstAtom := operators + selectionCount e operators + 1
        size := operators + selectionCount e operators + atoms } := by
  have hactive := handsOut_ones operators ⟨0⟩
  have hselected := HandsOut.mapM (fun op ↦ handsOut_allotPositions (e := e) ⟨op⟩)
    (List.range operators) ⟨operators⟩
  rw [Nat.zero_add] at hactive
  have hloops : allotted e operators atoms = ((allotAtoms allocate atoms
      ((allotOperators allocate e operators).run ⟨0⟩).1).run
        ((allotOperators allocate e operators).run ⟨0⟩).2).1 := rfl
  rw [hloops, allotOperators, run_bind, hactive, run_bind, hselected]
  rfl

theorem getElem?_active {op : Nat} (h : op < operators) :
    (allotted e operators atoms).active[op]? = some (op + 1) := by
  rw [allotted_eq, getElem?_run_mapM_range (fun _ ↦ handsOut_allocate 1) h, List.map_const',
    List.sum_replicate_nat, List.length_range, Nat.mul_one, Nat.zero_add]
  rfl

theorem getElem?_selected {op : Nat} (h : op < operators) {position : Nat}
    (hp : position < e.arity ⟨op⟩) :
    (allotted e operators atoms).selected[op]?.bind (·[position]?) =
      some (operators + selectionCount e op + positionCount e ⟨op⟩ position + 1) := by
  rw [allotted_eq, getElem?_run_mapM_range (fun op ↦ handsOut_allotPositions ⟨op⟩) h,
    Option.bind_some, allotPositions, getElem?_run_mapM_range (fun _ ↦ handsOut_allocate _) hp]
  rfl

theorem length_active : (allotted e operators atoms).active.length = operators := by
  rw [allotted_eq, length_run_mapM, List.length_range]

end Tables

/-! ## The variables of a layout -/

variable {l : Layout} {op : OperatorId} {position : Nat}

theorem tables_eq (l : Layout) :
    l.tables = .allotted l.eligibility l.operatorCount l.atomCount := by
  obtain ⟨operators, h⟩ := l.isAllotted
  rw [operatorCount, h, Tables.length_active]

theorem size_eq_add (l : Layout) : l.size =
    l.operatorCount + Tables.selectionCount l.eligibility l.operatorCount + l.atomCount := by
  rw [size, tables_eq, Tables.allotted_eq]

theorem selectedCount_eq (l : Layout) :
    l.selectedCount = Tables.selectionCount l.eligibility l.operatorCount := by
  rw [selectedCount, size_eq_add]
  omega

theorem size_eq (l : Layout) : l.size = l.operatorCount + l.selectedCount + l.atomCount := by
  rw [size_eq_add, selectedCount_eq]

theorem firstAtom_eq (l : Layout) :
    l.tables.firstAtom = l.operatorCount + l.selectedCount + 1 := by
  rw [selectedCount_eq, tables_eq, Tables.allotted_eq]

theorem getElem?_active (h : op.index < l.operatorCount) :
    l.tables.active[op.index]? = some (op.index + 1) := by
  rw [tables_eq, Tables.getElem?_active h]

theorem active_eq (h : op.index < l.operatorCount) : l.active op = .pos op.index := by
  rw [active, getElem?_active h]
  rfl

theorem active_inj {op' : OperatorId} (h : op.index < l.operatorCount)
    (h' : op'.index < l.operatorCount) (he : l.active op = l.active op') : op = op' := by
  rw [active_eq h, active_eq h'] at he
  exact congrArg (fun s : Literal ↦ (⟨s.var⟩ : OperatorId)) he

theorem firstSelected?_eq (h : op.index < l.operatorCount)
    (hp : position < l.eligibility.arity op) : l.firstSelected? op position =
      some (l.operatorCount + Tables.selectionCount l.eligibility op.index +
        Tables.positionCount l.eligibility op position + 1) := by
  rw [firstSelected?, tables_eq, Tables.getElem?_selected h hp]

theorem selected_eq (h : op.index < l.operatorCount) (hp : position < l.eligibility.arity op)
    (i : Nat) : l.selected op position i =
      .pos (l.operatorCount + Tables.selectionCount l.eligibility op.index +
        Tables.positionCount l.eligibility op position + i) := by
  rw [selected, firstSelected?_eq h hp]
  rfl

theorem holds_eq (a : AtomId) :
    l.holds a = .pos (l.operatorCount + l.selectedCount + a.index) := by
  rw [holds, firstAtom_eq]
  rfl

theorem operatorCount_ofEligibility (e : Eligibility) (atoms : Nat) :
    (ofEligibility e atoms).operatorCount = e.sets.length :=
  Tables.length_active

/-- The layout of all operators is built if words suffice for its tables. -/
theorem ofEligibility?_length (e : Eligibility) (atoms : Nat) :
    ofEligibility? e e.sets.length atoms =
      if (ofEligibility e atoms).tables.firstAtom < wordCount ∧
          (ofEligibility e atoms).size < wordCount then
        some (ofEligibility e atoms)
      else
        none := by
  have htables : Tables.allotted? e e.sets.length atoms =
      if (ofEligibility e atoms).tables.firstAtom < wordCount ∧
          (ofEligibility e atoms).size < wordCount then
        some (ofEligibility e atoms).tables
      else
        none := Tables.allotted?_eq e e.sets.length atoms
  rw [ofEligibility?, if_pos (Nat.le_refl _)]
  split
  case h_1 hnone =>
    rw [htables, ite_eq_right_iff] at hnone
    exact (if_neg fun hfits ↦ Option.some_ne_none _ (hnone hfits)).symm
  case h_2 tables hsome =>
    rw [htables] at hsome
    obtain ⟨hfits, hsome⟩ := Option.ite_none_right_eq_some.mp hsome
    obtain rfl := Option.some.inj hsome
    exact (if_pos hfits).symm

/-! ## Look-ups -/

theorem active?_eq (h : op.index < l.operatorCount) :
    l.active? op = Literal.ofNumber? (l.active op).number := by
  rw [active?, getElem?_active h, active_eq h]
  rfl

theorem selected?_eq (h : op.index < l.operatorCount) (hp : position < l.eligibility.arity op)
    (i : Nat) : l.selected? op position i = Literal.ofNumber? (l.selected op position i).number := by
  rw [selected?, firstSelected?_eq h hp, selected_eq h hp, Option.bind_some, Nat.add_right_comm]
  rfl

theorem holds?_eq (a : AtomId) : l.holds? a = Literal.ofNumber? (l.holds a).number := by
  rw [holds?, holds_eq, firstAtom_eq, Nat.add_right_comm]
  rfl

end Layout

end LiftedPlanning
