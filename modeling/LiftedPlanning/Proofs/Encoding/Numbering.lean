import Mathlib.Data.Set.Function
import Mathlib.Order.Interval.Set.Defs
import LiftedPlanning.Proofs.Cnf.Literal
import LiftedPlanning.Proofs.Encoding.Soundness
import LiftedPlanning.Proofs.Handles
import LiftedPlanning.Proofs.Valuation

/-!
# The numbering of variables

A block has a cell for every operator, for every constant that is eligible at a position of an
operator, and for every atom. Its variables number these cells without a gap and without repetition,
even where operators have no parameters or positions no eligible constants. Behind one another the
blocks of the steps up to a horizon number the cells of all steps, from 1 on.

That the facts of a block are listed once each is what ties a variable to its cell. It needs that no
constant is eligible twice at a position, which both sources of eligible constants see to.
-/

namespace LiftedPlanning

open Cnf (Literal)

namespace Layout

/-! ## Cells -/

/-- What a variable of a block is for. The eligible constants of a position are counted. -/
inductive Cell
  | active (op : OperatorId)
  | selected (op : OperatorId) (position i : Nat)
  | holds (id : AtomId)

def Cell.literal (l : Layout) : Cell → Literal
  | .active op => l.active op
  | .selected op position i => l.selected op position i
  | .holds id => l.holds id

/-- The literal of a cell in the block of step 0, as it is looked up in words. -/
def Cell.literal? (l : Layout) : Cell → Option Literal
  | .active op => l.active? op
  | .selected op position i => l.selected? op position i
  | .holds id => l.holds? id

def Cell.IsIn (l : Layout) : Cell → Prop
  | .active op => op.index < l.operatorCount
  | .selected op position i =>
    op.index < l.operatorCount ∧ i < (l.eligibility.eligible op position).length
  | .holds id => id.index < l.atomCount

def cells (l : Layout) : Set Cell := {c | c.IsIn l}

/-- The cell of a fact, a constant being counted by its place among the eligible ones. -/
def Fact.cell (l : Layout) : Fact → Cell
  | .active op => .active op
  | .selected op position c => .selected op position ((l.eligibility.eligible op position).idxOf c)
  | .holds id => .holds id

variable {l : Layout}

theorem cell_of_mem_facts {f : Fact} (hf : f ∈ l.facts) :
    f.cell l ∈ l.cells ∧ l.facts[((f.cell l).literal l).var]? = some f := by
  simp only [facts, selectionFacts, positionFacts, List.mem_append, List.mem_map,
    List.mem_flatMap, mem_operators_iff, mem_atoms_iff] at hf
  rcases hf with ⟨op, hop, rfl⟩ | ⟨op, hop, position, _, c, hc, rfl⟩ | ⟨id, hid, rfl⟩
  · exact ⟨hop, fact_active hop⟩
  · exact ⟨⟨hop, List.idxOf_lt_length_of_mem hc⟩, fact_selected hop (List.getElem?_idxOf hc)⟩
  · exact ⟨hid, fact_holds hid⟩

theorem nodup_facts (hn : ∀ op position, (l.eligibility.eligible op position).Nodup) :
    l.facts.Nodup := by
  have hposition : ∀ op position, (l.positionFacts op position).Nodup := fun op position ↦
    (hn op position).map fun _ _ h ↦ (Fact.selected.inj h).2.2
  have hselection : ∀ op, (l.selectionFacts op).Nodup := by
    refine fun op ↦ List.nodup_flatMap.mpr ⟨fun position _ ↦ hposition op position, ?_⟩
    refine List.nodup_range.imp fun hne f hf hf' ↦ ?_
    obtain ⟨_, _, rfl⟩ := List.mem_map.mp hf
    obtain ⟨_, _, he⟩ := List.mem_map.mp hf'
    exact hne (Fact.selected.inj he).2.1.symm
  refine List.nodup_append.mpr ⟨?_, List.nodup_append.mpr ⟨?_, ?_, ?_⟩, ?_⟩
  · exact (Handle.nodup_first _).map fun _ _ ↦ Fact.active.inj
  · refine List.nodup_flatMap.mpr ⟨fun op _ ↦ hselection op, ?_⟩
    refine (Handle.nodup_first _).imp fun hne f hf hf' ↦ ?_
    obtain ⟨_, _, hf⟩ := List.mem_flatMap.mp hf
    obtain ⟨_, _, hf'⟩ := List.mem_flatMap.mp hf'
    obtain ⟨_, _, rfl⟩ := List.mem_map.mp hf
    obtain ⟨_, _, he⟩ := List.mem_map.mp hf'
    exact hne (Fact.selected.inj he).1.symm
  · exact (Handle.nodup_first _).map fun _ _ ↦ Fact.holds.inj
  · intro f hf f' hf'
    obtain ⟨_, _, hf⟩ := List.mem_flatMap.mp hf
    obtain ⟨_, _, hf⟩ := List.mem_flatMap.mp hf
    obtain ⟨_, _, rfl⟩ := List.mem_map.mp hf
    obtain ⟨_, _, rfl⟩ := List.mem_map.mp hf'
    exact Fact.noConfusion
  · intro f hf f' hf'
    obtain ⟨_, _, rfl⟩ := List.mem_map.mp hf
    rcases List.mem_append.mp hf' with hf' | hf'
    · obtain ⟨_, _, hf'⟩ := List.mem_flatMap.mp hf'
      obtain ⟨_, _, hf'⟩ := List.mem_flatMap.mp hf'
      obtain ⟨_, _, rfl⟩ := List.mem_map.mp hf'
      exact Fact.noConfusion
    · obtain ⟨_, _, rfl⟩ := List.mem_map.mp hf'
      exact Fact.noConfusion

/-! ## One block -/

section Block

variable (hn : ∀ op position, (l.eligibility.eligible op position).Nodup)

include hn

theorem exists_fact_of_mem_cells {c : Cell} (hc : c ∈ l.cells) :
    ∃ f, l.facts[(c.literal l).var]? = some f ∧ f.cell l = c := by
  cases c with
  | active op => exact ⟨_, fact_active hc, rfl⟩
  | selected op position i =>
    obtain ⟨hop, hi⟩ := hc
    refine ⟨_, fact_selected hop (List.getElem?_eq_getElem hi), ?_⟩
    rw [Fact.cell, (hn op position).idxOf_getElem]
  | holds id => exact ⟨_, fact_holds hc, rfl⟩

/-- **One block.** The cells of a layout are numbered by the variables of its block. -/
theorem bijOn_var : Set.BijOn (fun c : Cell ↦ (c.literal l).var) l.cells (Set.Iio l.size) := by
  refine .mk (fun c hc ↦ ?_) (fun c hc d hd he ↦ ?_) (fun v hv ↦ ?_)
  · obtain ⟨f, hf, _⟩ := exists_fact_of_mem_cells hn hc
    exact var_lt_size hf
  · obtain ⟨f, hf, rfl⟩ := exists_fact_of_mem_cells hn hc
    obtain ⟨f', hf', rfl⟩ := exists_fact_of_mem_cells hn hd
    rw [Option.some.inj (hf.symm.trans ((congrArg (l.facts[·]?) he).trans hf'))]
  · have hv : v < l.facts.length := length_facts ▸ hv
    obtain ⟨hc, hf⟩ := cell_of_mem_facts (List.getElem_mem hv)
    obtain ⟨hlt, hf⟩ := List.getElem?_eq_some_iff.mp hf
    exact ⟨_, hc, (nodup_facts hn).getElem_inj_iff.mp hf⟩

/-! ## The blocks of all steps -/

/-- **All blocks.** The cells of the steps up to a horizon are numbered from 1 on. -/
theorem bijOn_number (h : Nat) :
    Set.BijOn (fun x : Nat × Cell ↦ ((x.2.literal l).shift (x.1 * l.size)).number)
      {x | x.1 ≤ h ∧ x.2 ∈ l.cells} (Set.Icc 1 ((h + 1) * l.size)) := by
  obtain ⟨hmaps, hinj, hsurj⟩ := bijOn_var hn
  have hnumber : ∀ x : Nat × Cell, ((x.2.literal l).shift (x.1 * l.size)).number =
      (x.2.literal l).var + x.1 * l.size + 1 := fun _ ↦ rfl
  refine .mk (fun x hx ↦ ?_) (fun x hx y hy he ↦ ?_) (fun n hn ↦ ?_)
  · have hvar : (x.2.literal l).var < l.size := hmaps hx.2
    have hle : (x.1 + 1) * l.size ≤ (h + 1) * l.size :=
      Nat.mul_le_mul_right _ (Nat.succ_le_succ hx.1)
    rw [Nat.succ_mul] at hle
    rw [hnumber, Set.mem_Icc]
    omega
  -- the step is the quotient of the number, the variable in the block its remainder
  · have hvar : (x.2.literal l).var < l.size := hmaps hx.2
    have hvar' : (y.2.literal l).var < l.size := hmaps hy.2
    have he := Nat.succ.inj he
    have hpos : 0 < l.size := Nat.zero_lt_of_lt hvar
    have hstep : x.1 = y.1 := by
      have := congrArg (· / l.size) he
      simpa [Literal.shift, Nat.add_mul_div_right _ _ hpos, Nat.div_eq_of_lt hvar,
        Nat.div_eq_of_lt hvar'] using this
    have hcell : x.2 = y.2 := by
      refine hinj hx.2 hy.2 ?_
      have := congrArg (· % l.size) he
      simpa [Literal.shift, Nat.mod_eq_of_lt hvar, Nat.mod_eq_of_lt hvar'] using this
    exact Prod.ext hstep hcell
  · obtain ⟨hone, hle⟩ := hn
    have hpos : 0 < l.size := by
      refine Nat.pos_of_ne_zero fun hzero ↦ ?_
      rw [hzero] at hle
      omega
    obtain ⟨c, hc, hvar⟩ := hsurj (Nat.mod_lt (n - 1) hpos)
    refine ⟨((n - 1) / l.size, c), ⟨?_, hc⟩, ?_⟩
    · rw [Nat.mul_comm] at hle
      exact Nat.le_of_lt_succ (Nat.div_lt_of_lt_mul (Nat.lt_of_lt_of_le (by omega) hle))
    · have hdiv := Nat.div_add_mod' (n - 1) l.size
      refine (hnumber _).trans ?_
      change (c.literal l).var + (n - 1) / l.size * l.size + 1 = n
      change (c.literal l).var = _ at hvar
      omega

end Block

/-! ## Words -/

theorem positive_literal (c : Cell) : (c.literal l).positive = true := by
  cases c <;> rfl

theorem literal?_eq {c : Cell} (hc : c ∈ l.cells) :
    c.literal? l = Literal.ofNumber? (c.literal l).number := by
  cases c with
  | active op => exact active?_eq hc
  | selected op position i =>
    exact selected?_eq hc.1 (lt_arity_of_mem_eligible (List.getElem_mem hc.2)) i
  | holds id => exact holds?_eq id

theorem literal?_eq_some {c : Cell} (hc : c ∈ l.cells) (h : (c.literal l).number < signBound) :
    c.literal? l = some (c.literal l) := by
  have hpos : c.literal l = .pos (c.literal l).var := by cases c <;> rfl
  rw [literal?_eq hc, hpos]
  exact Literal.ofNumber?_pos h

/-- **All blocks in words.** The cells of the steps up to a horizon have their literals in words
exactly if the last number is a signed word. -/
theorem forall_shiftWord?_eq_iff (hn : ∀ op position, (l.eligibility.eligible op position).Nodup)
    (h : Nat) :
    (∀ k ≤ h, ∀ c ∈ l.cells, (c.literal? l).bind (·.shiftWord? (k * l.size)) =
      some ((c.literal l).shift (k * l.size))) ↔ (h + 1) * l.size < signBound := by
  obtain ⟨hmaps, -, hsurj⟩ := bijOn_number hn h
  constructor
  · intro hall
    by_cases hzero : (h + 1) * l.size = 0
    · rw [hzero]
      decide
    -- the last number belongs to a cell, whose literal is a word only if the number is
    obtain ⟨⟨k, c⟩, ⟨hk, hc⟩, hlast⟩ := hsurj ⟨Nat.pos_of_ne_zero hzero, Nat.le_refl _⟩
    obtain ⟨s, _, hs⟩ := Option.bind_eq_some_iff.mp (hall k hk c hc)
    have hlt := Literal.number_lt_of_shiftWord? (t := (c.literal l).shift (k * l.size))
      (positive_literal c) hs
    exact Nat.lt_of_le_of_lt (Nat.le_of_eq hlast.symm) hlt
  · intro hwords k hk c hc
    have hle : (c.literal l).number + k * l.size ≤ (h + 1) * l.size := by
      have := (hmaps (show (k, c) ∈ _ from ⟨hk, hc⟩)).2
      exact Nat.le_trans (Nat.le_of_eq (Nat.add_right_comm _ _ _)) this
    have hlt := Nat.lt_of_le_of_lt hle hwords
    rw [literal?_eq_some hc (Nat.lt_of_le_of_lt (Nat.le_add_right _ _) hlt), Option.bind_some]
    exact Literal.shiftWord?_eq_some hlt

/-! ## Selected constants -/

variable {op : OperatorId} {position : Nat} {c d : ConstantId} {s : Literal}

theorem selectedConstant_eq_ok_iff : l.selectedConstant op position c = .ok s ↔
    ∃ i, l.eligibility.place? op position c = some i ∧ l.selected? op position i = some s := by
  rw [selectedConstant, Eligibility.place?, l.eligibility.eligible_eq_getD]
  cases l.eligibility.eligible? op position with
  | none => simp
  | some set =>
    cases hi : set.idxOf? c with
    | none => simp [hi]
    | some i => cases hs : l.selected? op position i <;> simp [hi, hs]

/-- **Different constants** of a position have different literals. -/
theorem selectedConstant_inj (hc : l.selectedConstant op position c = .ok s)
    (hd : l.selectedConstant op position d = .ok s) : c = d := by
  obtain ⟨i, hi, hs⟩ := selectedConstant_eq_ok_iff.mp hc
  obtain ⟨j, hj, hs'⟩ := selectedConstant_eq_ok_iff.mp hd
  obtain ⟨first, hfirst, hs⟩ := Option.bind_eq_some_iff.mp hs
  obtain ⟨first', hfirst', hs'⟩ := Option.bind_eq_some_iff.mp hs'
  obtain rfl := Option.some.inj (hfirst.symm.trans hfirst')
  -- the numbers of a position are consecutive, so the literal tells the place
  obtain rfl : i = j := Nat.add_left_cancel (Literal.ofNumber?_inj hs hs')
  obtain ⟨_, rfl, _⟩ := List.idxOf?_eq_some_iff.mp hi
  obtain ⟨_, rfl, _⟩ := List.idxOf?_eq_some_iff.mp hj
  rfl

section Selected

variable (hcount : l.operatorCount = l.eligibility.sets.length)

include hcount

theorem index_lt_of_mem_eligible (hc : c ∈ l.eligibility.eligible op position) :
    op.index < l.operatorCount := by
  by_contra hn
  have hposition := lt_arity_of_mem_eligible hc
  rw [Eligibility.arity, Eligibility.setsOf,
    List.getElem?_eq_none (hcount ▸ Nat.le_of_not_lt hn)] at hposition
  exact Nat.not_lt_zero _ hposition

/-- **The eligible constants** are those that have a literal, if the variables of the layout can be
counted in words. -/
theorem exists_selectedConstant_iff (hwords : l.size < wordCount) :
    (∃ s, l.selectedConstant op position c = .ok s) ↔ c ∈ l.eligibility.eligible op position := by
  simp only [selectedConstant_eq_ok_iff]
  constructor
  · rintro ⟨s, i, hi, _⟩
    obtain ⟨_, rfl, _⟩ := List.idxOf?_eq_some_iff.mp hi
    exact List.getElem_mem _
  · intro hc
    obtain ⟨i, hi⟩ := Option.isSome_iff_exists.mp (List.isSome_idxOf?.mpr hc)
    obtain ⟨hlt, rfl, _⟩ := List.idxOf?_eq_some_iff.mp hi
    have hop := index_lt_of_mem_eligible hcount hc
    have hle : (l.selected op position i).number ≤ l.size :=
      var_lt_size (fact_selected hop (List.getElem?_eq_getElem hlt))
    obtain ⟨s, hs⟩ := Literal.exists_ofNumber? (Nat.succ_pos _) (Nat.lt_of_le_of_lt hle hwords)
    exact ⟨s, i, hi, (selected?_eq hop (lt_arity_of_mem_eligible hc) i).trans hs⟩

/-- As long as the numbers of the selections are signed words, the literals of the constants are
those of their cells. -/
theorem selectedConstant_eq_ok_iff_cell
    (hn : ∀ op position, (l.eligibility.eligible op position).Nodup)
    (hwords : l.operatorCount + l.selectedCount < signBound) :
    l.selectedConstant op position c = .ok s ↔
      ∃ i, (l.eligibility.eligible op position)[i]? = some c ∧
        s = (Cell.selected op position i).literal l := by
  rw [selectedConstant_eq_ok_iff]
  refine exists_congr fun i ↦ ?_
  rw [Eligibility.place?, idxOf?_eq_some_iff_of_nodup (hn op position)]
  refine and_congr_right fun hi ↦ ?_
  have hop := index_lt_of_mem_eligible hcount (List.mem_of_getElem? hi)
  obtain ⟨hlt, _⟩ := List.getElem?_eq_some_iff.mp hi
  have hword := literal?_eq_some (c := .selected op position i) ⟨hop, hlt⟩
    (Nat.lt_of_le_of_lt (var_selected_lt hop hi) hwords)
  rw [show l.selected? op position i = _ from hword, Option.some.injEq, eq_comm]

end Selected

end Layout

/-! ## Layouts of problems -/

/-- A literal that is moved keeps its sign, and it can be negated before or after. In words it is
moved exactly if the moved literal is a word, and an offset that is a signed word never moves it to
another place; other offsets count as negative. -/
structure Cnf.Literal.IsMoved (s : Literal) (n : Nat) : Prop where
  positive : (s.shift n).positive = s.positive
  negate : (s.shift n).negate = s.negate.shift n
  words_iff : s.shiftWord? n = some (s.shift n) ↔ isWord (s.shift n).toInt = true
  words : n < signBound → ∀ t, s.shiftWord? n = some t → t = s.shift n
  negate_words : s.number + n < signBound →
    (s.shiftWord? n).bind (·.negateWord?) = some (s.shift n).negate ∧
      s.negateWord?.bind (·.shiftWord? n) = some (s.shift n).negate

theorem Cnf.Literal.isMoved (s : Literal) (n : Nat) : s.IsMoved n where
  positive := rfl
  negate := rfl
  words_iff := shiftWord?_eq_some_iff
  words hn _ := eq_shift_of_shiftWord? hn
  negate_words h := by
    have hnegate := negateWord?_eq_some (Nat.lt_of_le_of_lt (Nat.le_add_right _ _) h)
    rw [shiftWord?_eq_some h, hnegate]
    exact ⟨negateWord?_eq_some (number_shift s n ▸ h), shiftWord?_eq_some h⟩

namespace Layout

/-- The cells of the steps up to a horizon, each by the number of its literal moved to the step,
are the numbers from 1 to the size of these blocks. The literals that are looked up and moved in
words are these literals exactly if the last number is a signed word. -/
structure IsNumbered (l : Layout) (horizon : Nat) : Prop where
  bijOn : Set.BijOn (fun x : Nat × Cell ↦ ((x.2.literal l).shift (x.1 * l.size)).number)
    {x | x.1 ≤ horizon ∧ x.2 ∈ l.cells} (Set.Icc 1 ((horizon + 1) * l.size))
  words_iff : (∀ k ≤ horizon, ∀ c ∈ l.cells, (c.literal? l).bind (·.shiftWord? (k * l.size)) =
    some ((c.literal l).shift (k * l.size))) ↔ (horizon + 1) * l.size < signBound

/-- The constants that have a literal at a position are the eligible ones, if the variables of the
layout can be counted in words. Different constants have different literals, and these are the
literals of their cells if the numbers of the selections are signed words. -/
structure SelectsEligible (l : Layout) (op : OperatorId) (position : Nat) : Prop where
  exists_iff : l.size < wordCount → ∀ c, (∃ s, l.selectedConstant op position c = .ok s) ↔
    c ∈ l.eligibility.eligible op position
  injective : ∀ c d s, l.selectedConstant op position c = .ok s →
    l.selectedConstant op position d = .ok s → c = d
  eq_ok_iff : l.operatorCount + l.selectedCount < signBound → ∀ c s,
    l.selectedConstant op position c = .ok s ↔
      ∃ i, (l.eligibility.eligible op position)[i]? = some c ∧
        s = (Cell.selected op position i).literal l

end Layout

namespace Encoding

/-- **The numbering of variables.** Let the eligible constants of a problem come from its types or
from any grounding, and let the universe have any size. The layout of all the operators, its tables
handed out by a counter in words, is the one of an unbounded counter; it is there exactly if the
number of the first atom and the size of the block are words. Its cells are numbered without gaps
over all steps, literals are moved with their signs, and the literals of constants at a position
are those of the eligible constants. -/
theorem bijOn_number_and_selectedConstant (p : Problem) (g : Grounding) (mode : EligibilityMode)
    (atoms horizon : Nat) :
    let e := eligibility p g mode
    let l := Layout.ofEligibility e atoms
    (Layout.ofEligibility? e p.operators.size atoms =
      if l.tables.firstAtom < wordCount ∧ l.size < wordCount then some l else none) ∧
    l.IsNumbered horizon ∧ (∀ (s : Literal) (n : Nat), s.IsMoved n) ∧
    ∀ op position, l.SelectsEligible op position := by
  intro e l
  have hn : ∀ op position, (l.eligibility.eligible op position).Nodup := fun op position ↦
    @nodup_eligible p g op mode position
  have hcount : l.operatorCount = l.eligibility.sets.length := Layout.operatorCount_ofEligibility ..
  refine ⟨?_, ⟨Layout.bijOn_number hn horizon, Layout.forall_shiftWord?_eq_iff hn horizon⟩,
    Literal.isMoved, fun op position ↦ ⟨fun hwords c ↦ ?_, fun c d s ↦ ?_, fun hwords c s ↦ ?_⟩⟩
  · rw [← length_sets_eligibility]
    exact Layout.ofEligibility?_length e atoms
  · exact Layout.exists_selectedConstant_iff hcount hwords
  · exact Layout.selectedConstant_inj
  · exact Layout.selectedConstant_eq_ok_iff_cell hcount hn hwords

/-- The doors with three atoms take nine variables a step. Number 14 is a cell of step 1, in words
as well, and the second door has a literal where one rings. -/
theorem numbering_doors :
    let l := Layout.ofEligibility (eligibility doors doorsGrounding .lifted) 3
    Layout.ofEligibility? (eligibility doors doorsGrounding .lifted) 2 3 = some l ∧
      (∃ k c, k ≤ 1 ∧ c ∈ l.cells ∧ ((c.literal l).shift (k * l.size)).number = 14 ∧
        (c.literal? l).bind (·.shiftWord? (k * l.size)) = some (.pos 13)) ∧
      (Literal.neg 4).shiftWord? l.size = some (.neg 13) ∧
      (∃ s, l.selectedConstant ⟨1⟩ 0 ⟨1⟩ = .ok s) ∧
      l.selectedConstant ⟨1⟩ 0 ⟨0⟩ ≠ l.selectedConstant ⟨1⟩ 0 ⟨1⟩ := by
  intro l
  have hsize : l.size = 9 := by decide +kernel
  obtain ⟨hbuilt, hnumbered, hmoved, hselected⟩ :=
    bijOn_number_and_selectedConstant doors doorsGrounding .lifted 3 1
  obtain ⟨s, hs⟩ := ((hselected ⟨1⟩ 0).exists_iff (by decide +kernel) ⟨1⟩).mpr (by decide +kernel)
  have hmem : 14 ∈ Set.Icc 1 ((1 + 1) * l.size) := by
    rw [hsize, Set.mem_Icc]
    decide
  obtain ⟨⟨k, c⟩, ⟨hk, hc⟩, hnumber⟩ := hnumbered.bijOn.surjOn hmem
  have hliteral : (c.literal l).shift (k * l.size) = .pos 13 := by
    rw [Literal.pos, ← Nat.succ.inj hnumber, ← (hmoved _ _).positive.trans (Layout.positive_literal c)]
  have hword := hnumbered.words_iff.mpr (by decide +kernel) k hk c hc
  refine ⟨hbuilt.trans (if_pos (by decide +kernel)), ⟨k, c, hk, hc, hnumber, hliteral ▸ hword⟩, ?_,
    ⟨s, hs⟩, fun he ↦ ?_⟩
  · rw [(hmoved (.neg 4) l.size).words_iff.mpr (by decide +kernel), hsize]
    rfl
  · exact absurd ((hselected ⟨1⟩ 0).injective ⟨0⟩ ⟨1⟩ s (he.trans hs) hs) (by decide)

end Encoding

end LiftedPlanning
