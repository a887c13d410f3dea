import Mathlib.Data.List.Induction
import Mathlib.Tactic.MkIffOfInductiveProp
import LiftedPlanning.Cnf.Answer
import LiftedPlanning.Proofs.Cnf.Literal
import LiftedPlanning.Proofs.Cnf.Satisfaction
import LiftedPlanning.Proofs.Fallible

/-!
# Which answers are taken as models

The lines of an answer tell statuses and the numbers of value lines. What the reader makes of an
answer only depends on what all the lines tell together: it refuses an unknown line, a second
status, a second zero and a variable out of bounds, wherever they stand, and gives each variable the
sign of its last literal.

The zero that ends the values is counted, but its place is not looked at. So a model is also read
from values that are cut off before the zero, from values that go on behind it, and from values that
give a variable both signs. The assignment makes all the literals true exactly if no variable has
both signs.
-/

namespace LiftedPlanning.Cnf

/-! ## Assignments of printed literals -/

namespace Assignment

variable {m : Assignment} {n v : Nat} {l : Literal} {ls : List Literal}

@[simp] theorem size_assign : (m.assign l).values.size = m.values.size :=
  Array.size_setIfInBounds

theorem value?_assign (h : l.var < m.values.size) :
    (m.assign l).value? v = if l.var = v then some l.positive else m.value? v := by
  rw [value?, assign, Array.getElem?_setIfInBounds, if_pos h, value?]
  split <;> rfl

theorem ofLiterals_concat : ofLiterals n (ls ++ [l]) = (ofLiterals n ls).assign l := by
  rw [ofLiterals, List.foldl_append]
  rfl

@[simp] theorem size_ofLiterals : (ofLiterals n ls).values.size = n := by
  induction ls using List.reverseRecOn with
  | nil => exact Array.size_replicate
  | append_singleton ls l ih => rw [ofLiterals_concat, size_assign, ih]

/-- A variable has the sign of its last literal. -/
theorem value?_ofLiterals (h : ∀ l ∈ ls, l.var < n) :
    (ofLiterals n ls).value? v = ((ls.filter (·.var = v)).getLast?).map (·.positive) := by
  induction ls using List.reverseRecOn with
  | nil =>
    rw [ofLiterals, List.foldl_nil, value?, blank, Array.getElem?_replicate]
    split <;> rfl
  | append_singleton ls l ih =>
    obtain ⟨hls, hl⟩ := List.forall_mem_append.mp h
    rw [ofLiterals_concat, value?_assign (by simpa using hl), ih hls, List.filter_append]
    split <;> simp [*]

theorem eq_of_value? {m' : Assignment} (hsize : m.values.size = m'.values.size)
    (h : ∀ v, m.value? v = m'.value? v) : m = m' := by
  obtain ⟨xs⟩ := m
  obtain ⟨ys⟩ := m'
  refine congrArg _ (Array.ext hsize fun i hi hi' ↦ ?_)
  simpa [value?, hi, hi'] using h i

theorem forall_satisfies_ofLiterals_iff (h : ∀ l ∈ ls, l.var < n) :
    (∀ l ∈ ls, (ofLiterals n ls).satisfies l = true) ↔ ∀ l ∈ ls, l.negate ∉ ls := by
  constructor
  · exact fun hs l hl hn ↦ not_satisfies_negate (hs l hl) (hs _ hn)
  · intro hc l hl
    have hne : ls.filter (·.var = l.var) ≠ [] :=
      List.ne_nil_of_mem (List.mem_filter.mpr ⟨hl, by simp⟩)
    obtain ⟨hlast, hvar⟩ := List.mem_filter.mp (List.getLast_mem hne)
    rw [satisfies_iff, value?_ofLiterals h, List.getLast?_eq_some_getLast hne, Option.map_some]
    generalize (ls.filter (·.var = l.var)).getLast hne = last at hlast hvar ⊢
    -- a last literal of the other sign would be the negation
    by_contra hsign
    refine hc l hl ?_
    have hnegate : l.negate = last := by
      obtain ⟨var, positive⟩ := l
      obtain ⟨var', positive'⟩ := last
      cases positive <;> cases positive' <;> simp_all [Literal.negate]
    rwa [hnegate]

end Assignment

namespace Answer

/-! ## What lines tell -/

/-- A piece of what the lines of an answer tell. -/
inductive Item
  | status (satisfiable : Bool)
  /-- A value line begins. -/
  | values
  | number (x : Int)
  deriving DecidableEq, Repr

/-- What a line tells, if it is known. -/
def itemsOf? (line : List Char) : Option (List Item) :=
  if line = "s SATISFIABLE".toList then
    some [.status true]
  else if line = "s UNSATISFIABLE".toList then
    some [.status false]
  else
    match line with
    | 'v' :: ' ' :: rest => ((words rest).mapM Text.readInteger?).map fun xs ↦
        .values :: xs.map .number
    | _ => if isSkipped line then some [] else none

/-- What an answer tells, if all its lines are known. -/
def items? (output : List UInt8) : Option (List Item) :=
  ((Text.storedLines output).mapM (Option.bind · itemsOf?)).map List.flatten

def Item.status? : Item → Option Bool
  | .status satisfiable => some satisfiable
  | _ => none

def Item.number? : Item → Option Int
  | .number x => some x
  | _ => none

def statuses (items : List Item) : List Bool :=
  items.filterMap Item.status?

def numbers (items : List Item) : List Int :=
  items.filterMap Item.number?

/-- The literals on the value lines, in order. -/
def printed (items : List Item) : List Literal :=
  (numbers items).filterMap Literal.ofInt?

@[simp] theorem statuses_singleton {item : Item} : statuses [item] = item.status?.toList := by
  cases item <;> rfl

@[simp] theorem numbers_singleton {item : Item} : numbers [item] = item.number?.toList := by
  cases item <;> rfl

@[simp] theorem statuses_append {items items' : List Item} :
    statuses (items ++ items') = statuses items ++ statuses items' :=
  List.filterMap_append

@[simp] theorem numbers_append {items items' : List Item} :
    numbers (items ++ items') = numbers items ++ numbers items' :=
  List.filterMap_append

variable {n : Nat} {a b : Answer} {items : List Item}

/-! ## Taking in what was told -/

/-- Takes in a piece of an answer about `n` variables, if it may stand there. -/
def note? (n : Nat) (a : Answer) : Item → Option Answer
  | .status satisfiable => if a.status.isSome then none else some { a with status := satisfiable }
  | .values => some { a with hasValues := true }
  | .number x =>
    match Literal.ofInt? x with
    | none => if a.ended then none else some { a with ended := true }
    | some l => if l.var < n then some { a with literals := l :: a.literals } else none

theorem readWord_eq_ok_iff {word : List Char} :
    readWord n a word = .ok b ↔
      ∃ x, Text.readInteger? word = some x ∧ note? n a (.number x) = some b := by
  rw [readWord]
  cases Text.readInteger? word with
  | none => simp
  | some x =>
    simp only [Option.some.injEq, exists_eq_left', note?]
    cases Literal.ofInt? x with
    | none => cases a.ended <;> simp
    | some l => by_cases hn : l.var < n <;> simp [hn]

theorem foldlM_readWord_eq_ok_iff {words : List (List Char)} :
    words.foldlM (readWord n) a = .ok b ↔ ∃ xs, words.mapM Text.readInteger? = some xs ∧
      (xs.map Item.number).foldlM (note? n) a = some b := by
  simp only [List.foldlM_map]
  exact Fallible.foldlM_eq_ok_iff (f := readWord n) (g := Text.readInteger?)
    (h := fun a x ↦ note? n a (.number x)) fun _ _ _ ↦ readWord_eq_ok_iff

theorem readStatus_eq_ok_iff {satisfiable : Bool} :
    a.readStatus satisfiable = .ok b ↔ note? n a (.status satisfiable) = some b := by
  rw [readStatus, note?]
  split <;> simp

theorem readLine_eq_ok_iff {line : Option (List Char)} :
    readLine n a line = .ok b ↔
      ∃ items, line.bind itemsOf? = some items ∧ items.foldlM (note? n) a = some b := by
  rw [readLine.eq_def]
  cases line with
  | none => simp
  | some line =>
    rw [Option.bind_some, itemsOf?.eq_def]
    dsimp only
    split
    · simp [readStatus_eq_ok_iff (n := n)]
    · split
      · simp [readStatus_eq_ok_iff (n := n)]
      · split
        · simp [foldlM_readWord_eq_ok_iff, note?]
        · split <;> simp

/-! ## Runs -/

/-- Pieces that can be taken in: no second status, no second zero, and no variable out of bounds. -/
@[mk_iff]
structure Admits (n : Nat) (a : Answer) (items : List Item) : Prop where
  status : a.status.toList.length + (statuses items).length ≤ 1
  zero : a.ended.toNat + (numbers items).count 0 ≤ 1
  bound : ∀ x ∈ numbers items, x.natAbs ≤ n

/-- What is known after some more pieces. -/
def after (a : Answer) (items : List Item) : Answer where
  status := a.status <|> (statuses items).head?
  literals := (printed items).reverse ++ a.literals
  hasValues := a.hasValues || items.contains .values
  ended := a.ended || (numbers items).contains 0

/-- **One piece** is taken in exactly if it can be. -/
theorem note?_eq_some_iff {item : Item} :
    note? n a item = some b ↔ a.Admits n [item] ∧ b = a.after [item] := by
  obtain ⟨status, literals, hasValues, ended⟩ := a
  rw [admits_iff]
  cases item with
  | status satisfiable =>
    cases status <;> cases ended <;>
      simp [note?, after, printed, Item.status?, Item.number?, eq_comm]
  | values =>
    cases status <;> cases ended <;>
      simp [note?, after, printed, Item.status?, Item.number?, eq_comm]
  | number x =>
    cases hx : Literal.ofInt? x with
    | none =>
      obtain rfl := Literal.ofInt?_eq_none_iff.mp hx
      cases status <;> cases ended <;>
        simp [note?, hx, after, printed, Item.status?, Item.number?, eq_comm]
    | some l =>
      obtain ⟨hne, hvar⟩ := Literal.natAbs_of_ofInt? hx
      have hbound : x.natAbs ≤ n ↔ l.var < n := hvar ▸ Nat.succ_le_iff
      by_cases hn : l.var < n <;> cases status <;> cases ended <;>
        simp [note?, hx, hn, hne, hne.symm, hbound, after, printed, Item.status?, Item.number?,
          eq_comm]

theorem admits_append_iff {items' : List Item} :
    a.Admits n (items ++ items') ↔ a.Admits n items ∧ (a.after items).Admits n items' := by
  -- of what may be there once, it is known afterwards whether it was there
  have hstatus : a.status.toList.length + (statuses items).length ≤ 1 →
      (a.after items).status.toList.length = a.status.toList.length + (statuses items).length := by
    rw [after]
    cases a.status <;> cases statuses items <;> simp
  have hended : a.ended.toNat + (numbers items).count 0 ≤ 1 →
      (a.after items).ended.toNat = a.ended.toNat + (numbers items).count 0 := by
    intro hle
    rw [after]
    by_cases hzero : 0 ∈ numbers items
    · have hcount := List.count_pos_iff.mpr hzero
      rw [List.contains_iff_mem.mpr hzero, Bool.or_true, Bool.toNat_true]
      omega
    · simp [hzero, List.count_eq_zero_of_not_mem hzero]
  simp only [admits_iff, statuses_append, numbers_append, List.length_append, List.count_append,
    List.forall_mem_append]
  constructor
  · rintro ⟨hs, hz, hb, hb'⟩
    exact ⟨⟨by omega, by omega, hb⟩, by omega, by omega, hb'⟩
  · rintro ⟨⟨hs, hz, hb⟩, hs', hz', hb'⟩
    exact ⟨by omega, by omega, hb, hb'⟩

theorem after_append {items' : List Item} :
    a.after (items ++ items') = (a.after items).after items' := by
  simp [after, printed, Bool.or_assoc, Option.or_assoc]

/-- **Runs.** Pieces are taken in exactly if they can be, and all together. -/
theorem foldlM_note_eq_some_iff :
    items.foldlM (note? n) a = some b ↔ a.Admits n items ∧ b = a.after items := by
  induction items generalizing a with
  | nil =>
    have hadmits : a.Admits n [] := ⟨by cases a.status <;> simp [statuses],
      by cases a.ended <;> simp [numbers], by simp [numbers]⟩
    simp [hadmits, after, statuses, printed, numbers, eq_comm]
  | cons item items ih =>
    simp only [List.foldlM_cons, Option.bind_eq_bind, Option.bind_eq_some_iff, note?_eq_some_iff,
      ih]
    change _ ↔ a.Admits n ([item] ++ items) ∧ b = a.after ([item] ++ items)
    rw [admits_append_iff, after_append]
    constructor
    · rintro ⟨_, ⟨hitem, rfl⟩, hitems, rfl⟩
      exact ⟨⟨hitem, hitems⟩, rfl⟩
    · rintro ⟨⟨hitem, hitems⟩, rfl⟩
      exact ⟨_, ⟨hitem, rfl⟩, hitems, rfl⟩

/-! ## Answers -/

/-- **Answers.** An answer is read exactly if all its lines are known and what they tell can be
taken in, and the verdict is that of all of it. -/
theorem read_eq_ok_iff {output : List UInt8} {v : Verdict} :
    read n output = .ok v ↔ ∃ items, items? output = some items ∧
      Admits n {} items ∧ verdict n (after {} items) = v := by
  have hrun : ∀ b, (Text.storedLines output).foldlM (readLine n) {} = .ok b ↔
      ∃ itemss, (Text.storedLines output).mapM (Option.bind · itemsOf?) = some itemss ∧
        Admits n {} itemss.flatten ∧ b = after {} itemss.flatten := by
    intro b
    simp only [← foldlM_note_eq_some_iff, Fallible.foldlM_flatten]
    exact Fallible.foldlM_eq_ok_iff (f := readLine n) (g := (Option.bind · itemsOf?))
      (h := fun s items ↦ items.foldlM (note? n) s) fun _ _ _ ↦ readLine_eq_ok_iff
  simp only [read, Fallible.map_eq_ok_iff, hrun, items?, Option.map_eq_some_iff]
  constructor
  · rintro ⟨_, ⟨itemss, hitems, hadmits, rfl⟩, hv⟩
    exact ⟨_, ⟨itemss, hitems, rfl⟩, hadmits, hv⟩
  · rintro ⟨_, ⟨itemss, hitems, rfl⟩, hadmits, hv⟩
    exact ⟨_, ⟨itemss, hitems, hadmits, rfl⟩, hv⟩

/-- What an answer has to tell for a model of `n` variables. -/
structure TellsModel (n : Nat) (items : List Item) : Prop where
  status : statuses items = [true]
  values : .values ∈ items
  /-- At most one zero, wherever it stands. -/
  zero : (numbers items).count 0 ≤ 1
  bound : ∀ x ∈ numbers items, x.natAbs ≤ n

theorem TellsModel.var_lt (h : TellsModel n items) : ∀ l ∈ printed items, l.var < n := by
  intro l hl
  obtain ⟨x, hx, hxl⟩ := List.mem_filterMap.mp hl
  have hbound := h.bound x hx
  rw [(Literal.natAbs_of_ofInt? hxl).2] at hbound
  exact hbound

/-- The model that is read makes the printed literals true, one after the other. -/
theorem verdict_after_eq_satisfiable_iff {m : Assignment} :
    Admits n {} items ∧ verdict n (after {} items) = .satisfiable m ↔
      TellsModel n items ∧ m = .ofLiterals n (printed items) := by
  have hstatus : (after {} items).status = (statuses items).head? := by simp [after]
  have hvalues : (after {} items).hasValues = decide (.values ∈ items) := by simp [after]
  have hliterals : (after {} items).literals.reverse = printed items := by simp [after]
  rw [verdict, hstatus, hvalues, hliterals]
  constructor
  · rintro ⟨hadmits, hv⟩
    split at hv
    · rename_i htrue hmem
      obtain ⟨rest, hrest⟩ := List.head?_eq_some_iff.mp htrue
      have hlength : (statuses items).length ≤ 1 := by simpa using hadmits.status
      obtain rfl : rest = [] := by simpa [hrest] using hlength
      exact ⟨⟨hrest, of_decide_eq_true hmem, by simpa using hadmits.zero, hadmits.bound⟩,
        (Verdict.satisfiable.inj hv).symm⟩
    · cases hv
    · cases hv
  · rintro ⟨htells, rfl⟩
    refine ⟨⟨by simp [htells.status], by simpa using htells.zero, htells.bound⟩, ?_⟩
    simp [htells.status, htells.values]

/-- The values of an answer are well-formed: they are ended by their only zero, and no variable has
both signs. -/
structure IsWellFormed (items : List Item) : Prop where
  ended : ∃ xs, numbers items = xs ++ [0] ∧ 0 ∉ xs
  consistent : ∀ l ∈ printed items, l.negate ∉ printed items

/-- **Which models are read.** A model is read exactly if all lines are known, the only status is
that there is a model, there is a value line, the variables are in bounds and there is at most one
zero. The model gives every variable the sign of its last literal and leaves the others open, so it
makes all the literals true exactly if no variable has both signs, as it is in well-formed values.
-/
theorem read_eq_satisfiable_iff (n : Nat) (output : List UInt8) (m : Assignment) :
    read n output = .ok (.satisfiable m) ↔ ∃ items, items? output = some items ∧
      TellsModel n items ∧ m.values.size = n ∧
      (∀ v, m.value? v = (((printed items).filter (·.var = v)).getLast?).map (·.positive)) ∧
      ((∀ l ∈ printed items, m.satisfies l = true) ↔
        ∀ l ∈ printed items, l.negate ∉ printed items) := by
  simp only [read_eq_ok_iff, verdict_after_eq_satisfiable_iff]
  refine exists_congr fun items ↦ and_congr_right fun _ ↦ and_congr_right fun htells ↦ ?_
  constructor
  · rintro rfl
    exact ⟨Assignment.size_ofLiterals, fun _ ↦ Assignment.value?_ofLiterals htells.var_lt,
      Assignment.forall_satisfies_ofLiterals_iff htells.var_lt⟩
  · rintro ⟨hsize, hvalue, _⟩
    exact Assignment.eq_of_value? (hsize.trans Assignment.size_ofLiterals.symm) fun v ↦
      (hvalue v).trans (Assignment.value?_ofLiterals htells.var_lt).symm

/-- Models are read from values without a zero, from values that go on behind it, and from values
that give a variable both signs. -/
theorem read_malformed :
    read 2 (Text.encode "s SATISFIABLE\nv 1 2\n".toList) =
      .ok (.satisfiable ⟨#[some true, some true]⟩) ∧
    read 2 (Text.encode "s SATISFIABLE\nv 1 0 2\n".toList) =
      .ok (.satisfiable ⟨#[some true, some true]⟩) ∧
    read 1 (Text.encode "s SATISFIABLE\nv 1 -1 0\n".toList) =
      .ok (.satisfiable ⟨#[some false]⟩) ∧
    ¬∀ n output m, read n output = .ok (.satisfiable m) →
      ∃ items, items? output = some items ∧ IsWellFormed items := by
  have hcut : read 2 (Text.encode "s SATISFIABLE\nv 1 2\n".toList) =
      .ok (.satisfiable ⟨#[some true, some true]⟩) := by decide +kernel
  refine ⟨hcut, by decide +kernel, by decide +kernel, fun h ↦ ?_⟩
  obtain ⟨items, hitems, hwell⟩ := h _ _ _ hcut
  have htold : items? (Text.encode "s SATISFIABLE\nv 1 2\n".toList) =
      some [.status true, .values, .number 1, .number 2] := by decide +kernel
  obtain rfl := Option.some.inj (htold.symm.trans hitems)
  obtain ⟨xs, hxs, _⟩ := hwell.ended
  have hzero : (0 : Int) ∈ numbers [.status true, .values, .number 1, .number 2] := by
    rw [hxs]
    exact List.mem_append_right _ (List.mem_singleton_self 0)
  exact absurd hzero (by decide)

end Answer

end LiftedPlanning.Cnf
