import Mathlib.Data.List.ReduceOption
import LiftedPlanning.Proofs.Cnf.Answer
import LiftedPlanning.Proofs.Text.Number
import LiftedPlanning.Proofs.Text.Stored

/-!
# Well-formed outputs are read back

A well-formed output of a solver consists of lines of a few kinds, which may stand in any order. At
most one of them is the status. The literals of a model are spread over the value lines, in any
order and with any number of them on a line, and a zero comes after the last one. Comments, value
lines without values and empty lines stand anywhere. Each line has one of the two line ends, and the
last line may do without.

Here outputs are built from such lines and written down, and the reader finds the model that was
written. It does not depend on the order of the literals, how they are spread, the kinds of lines in
between or the line ends.
-/

namespace LiftedPlanning.Cnf

/-! ## Assignments of all true literals -/

namespace Assignment

variable {m : Assignment} {ls : List Literal}

theorem var_lt_of_satisfies {l : Literal} (h : m.satisfies l = true) : l.var < m.values.size := by
  by_contra hle
  rw [satisfies_iff, value?, Array.getElem?_eq_none (Nat.le_of_not_lt hle)] at h
  cases h

/-- An assignment is that of its true literals, in any order. -/
theorem ofLiterals_eq (h : ∀ l, l ∈ ls ↔ m.satisfies l = true) :
    ofLiterals m.values.size ls = m := by
  have hbound : ∀ l ∈ ls, l.var < m.values.size := fun l hl ↦ var_lt_of_satisfies ((h l).mp hl)
  refine eq_of_value? size_ofLiterals fun v ↦ ?_
  rw [value?_ofLiterals hbound]
  cases hlast : (ls.filter (·.var = v)).getLast? with
  | none =>
    have hnone : ∀ l ∈ ls, l.var ≠ v := by
      simpa [List.filter_eq_nil_iff] using List.getLast?_eq_none_iff.mp hlast
    cases hvalue : m.value? v with
    | none => rfl
    | some b =>
      have hmem : ⟨v, b⟩ ∈ ls := (h ⟨v, b⟩).mpr (satisfies_iff.mpr hvalue)
      exact absurd rfl (hnone _ hmem)
  | some l =>
    obtain ⟨hl, hv⟩ := List.mem_filter.mp (List.mem_of_getLast? hlast)
    rw [← of_decide_eq_true hv, satisfies_iff.mp ((h l).mp hl)]
    rfl

end Assignment

namespace Answer

open Text (LineEnd)

/-! ## Lines -/

inductive Blank
  | space
  | tab
  deriving DecidableEq, Repr

def Blank.char : Blank → Char
  | .space => ' '
  | .tab => '\t'

/-- A line of a well-formed output. -/
inductive Line
  | status (satisfiable : Bool)
  /-- Numbers after the first blank, with blanks between them. Where two blanks follow each other,
  or a blank ends the line, a number is missing. -/
  | values (first : Option Int) (rest : List (Blank × Option Int))
  | comment (text : List Char) (inLine : '\n' ∉ text)
  | bareComment
  | bareValues
  | empty

/-- The text of a number that may be missing. -/
def wordText (x? : Option Int) : List Char :=
  x?.elim [] fun x ↦ (toString x).toList

def statusText (satisfiable : Bool) : List Char :=
  (if satisfiable then "s SATISFIABLE" else "s UNSATISFIABLE").toList

/-- A line as it is written, without its end. -/
def Line.text : Line → List Char
  | .status satisfiable => statusText satisfiable
  | .values first rest =>
    'v' :: ' ' :: (wordText first ++ rest.flatMap fun entry ↦ entry.1.char :: wordText entry.2)
  | .comment text _ => 'c' :: ' ' :: text
  | .bareComment => ['c']
  | .bareValues => ['v']
  | .empty => []

def Line.items : Line → List Item
  | .status satisfiable => [.status satisfiable]
  | .values first rest => .values :: (first :: rest.map (·.2)).reduceOption.map .number
  | _ => []

variable {line : Line} {c : Char}

theorem mem_wordText {x? : Option Int} (h : c ∈ wordText x?) : c.isDigit = true ∨ c = '-' := by
  cases x? with
  | none => cases h
  | some x => exact Text.isDigit_or_of_mem_toString h

theorem toNat_le_of_isSeparator (h : isSeparator c = true) : c.toNat ≤ 32 := by
  simp only [isSeparator, Bool.or_eq_true, decide_eq_true_eq] at h
  rcases h with (((rfl | rfl) | rfl) | rfl) | h
  all_goals first | decide | omega

theorem isSeparator_of_mem_wordText {x? : Option Int} (h : c ∈ wordText x?) :
    isSeparator c = false := by
  refine Bool.eq_false_iff.mpr fun hs ↦ ?_
  have hle := toNat_le_of_isSeparator hs
  rcases mem_wordText h with hd | rfl
  · rw [Char.isDigit, Bool.and_eq_true, decide_eq_true_eq] at hd
    exact absurd (Nat.le_trans hd.1 hle) (by decide)
  · exact absurd hle (by decide)

theorem Blank.isSeparator_char (b : Blank) : isSeparator b.char = true := by
  cases b <;> rfl

theorem words_eq_map_wordText {first : Option Int} {rest : List (Blank × Option Int)} :
    words (wordText first ++ rest.flatMap fun entry ↦ entry.1.char :: wordText entry.2) =
      ((first :: rest.map (·.2)).map wordText).filter (!·.isEmpty) := by
  rw [words, Text.fieldsBy_append_flatMap (fun _ ↦ isSeparator_of_mem_wordText)
    fun entry _ ↦ ⟨entry.1.isSeparator_char, fun _ ↦ isSeparator_of_mem_wordText⟩, List.map_cons,
    List.map_map]
  rfl

theorem mapM_readInteger?_wordText {xs : List (Option Int)}
    (h : ∀ x ∈ xs.reduceOption, Text.readInteger? (toString x).toList = some x) :
    ((xs.map wordText).filter (!·.isEmpty)).mapM Text.readInteger? = some xs.reduceOption := by
  induction xs with
  | nil => rfl
  | cons x? xs ih =>
    cases x? with
    | none => exact ih h
    | some x =>
      rw [List.reduceOption_cons_of_some] at h ⊢
      obtain ⟨hx, hxs⟩ := List.forall_mem_cons.mp h
      have hne : (!(wordText (some x)).isEmpty) = true := by
        cases hword : wordText (some x) with
        | nil =>
          rw [show (toString x).toList = [] from hword] at hx
          cases hx
        | cons c cs => rfl
      rw [List.map_cons, List.filter_cons, if_pos hne, List.mapM_cons, ih hxs,
        show Text.readInteger? (wordText (some x)) = some x from hx]
      rfl

theorem itemsOf?_statusText (satisfiable : Bool) :
    itemsOf? (statusText satisfiable) = some [.status satisfiable] := by
  cases satisfiable with
  | true =>
    have htext : statusText true = "s SATISFIABLE".toList := rfl
    rw [itemsOf?.eq_def, if_pos htext]
  | false =>
    have htext : statusText false = "s UNSATISFIABLE".toList := rfl
    rw [itemsOf?.eq_def, if_neg (by decide), if_pos htext]

theorem ne_status_of_head?_ne {cs : List Char} (h : cs.head? ≠ some 's') :
    cs ≠ "s SATISFIABLE".toList ∧ cs ≠ "s UNSATISFIABLE".toList :=
  ⟨fun he ↦ h (he ▸ rfl), fun he ↦ h (he ▸ rfl)⟩

theorem itemsOf?_values (cs : List Char) : itemsOf? ('v' :: ' ' :: cs) =
    ((words cs).mapM Text.readInteger?).map fun xs ↦ .values :: xs.map .number := by
  have hhead : ('v' :: ' ' :: cs).head? ≠ some 's' := by simp
  have hne := ne_status_of_head?_ne hhead
  rw [itemsOf?.eq_def, if_neg hne.1, if_neg hne.2]
  rfl

theorem itemsOf?_comment (cs : List Char) : itemsOf? ('c' :: ' ' :: cs) = some [] := by
  have hhead : ('c' :: ' ' :: cs).head? ≠ some 's' := by simp
  have hne := ne_status_of_head?_ne hhead
  rw [itemsOf?.eq_def, if_neg hne.1, if_neg hne.2]
  rfl

/-- **A line** tells what was written in it. -/
theorem itemsOf?_text (h : ∀ x, .number x ∈ line.items →
    Text.readInteger? (toString x).toList = some x) : itemsOf? line.text = some line.items := by
  cases line with
  | status satisfiable => exact itemsOf?_statusText satisfiable
  | values first rest =>
    have hread : ∀ x ∈ (first :: rest.map (·.2)).reduceOption,
        Text.readInteger? (toString x).toList = some x := fun x hx ↦
      h x (List.mem_cons_of_mem _ (List.mem_map_of_mem hx))
    have hmap := mapM_readInteger?_wordText hread
    rw [← words_eq_map_wordText] at hmap
    rw [Line.text, itemsOf?_values, hmap]
    rfl
  | comment text inLine => exact itemsOf?_comment text
  | bareComment => rfl
  | bareValues => rfl
  | empty => rfl

theorem not_mem_text_values {first : Option Int} {rest : List (Blank × Option Int)}
    (h : isSeparator c = true) (hblank : c ≠ ' ' ∧ c ≠ '\t') :
    c ∉ (Line.values first rest).text := by
  have hword (x? : Option Int) : c ∉ wordText x? := fun hc ↦
    absurd (h.symm.trans (isSeparator_of_mem_wordText hc)) (by decide)
  have hchar (b : Blank) : c ≠ b.char := by
    cases b
    · exact hblank.1
    · exact hblank.2
  have hv : c ≠ 'v' := fun he ↦ absurd (he ▸ h) (by decide)
  simp [Line.text, hword, hchar, hv, hblank.1]

theorem feed_not_mem_text : '\n' ∉ line.text := by
  cases line with
  | status satisfiable => cases satisfiable <;> decide
  | values first rest => exact not_mem_text_values (by decide) (by decide)
  | comment text inLine => simp [Line.text, inLine]
  | bareComment => decide
  | bareValues => decide
  | empty => decide

/-- If a line loses a return to its end, it is a comment, and remains one. -/
theorem exists_text_eq_cut (line : Line) (e : LineEnd) :
    ∃ line' : Line, e.cut '\r' line.text = line'.text ∧ line'.items = line.items := by
  cases e with
  | returnFeed => exact ⟨line, rfl, rfl⟩
  | feed =>
    by_cases hmem : '\r' ∈ line.text
    · cases line with
      | comment text inLine =>
        have hne : text ≠ [] := by
          rintro rfl
          simp [Line.text] at hmem
        refine ⟨.comment (Text.unreturned '\r' text) (mt Text.mem_of_mem_unreturned inLine), ?_,
          rfl⟩
        change Text.unreturned '\r' (['c', ' '] ++ text) = _
        exact Text.unreturned_append hne
      | status satisfiable => cases satisfiable <;> exact absurd hmem (by decide)
      | values first rest => exact absurd hmem (not_mem_text_values (by decide) (by decide))
      | bareComment => exact absurd hmem (by decide)
      | bareValues => exact absurd hmem (by decide)
      | empty => exact absurd hmem (by decide)
    · exact ⟨line, Text.unreturned_of_not_mem hmem, rfl⟩

/-! ## Outputs -/

/-- A well-formed output: lines with their ends, and what follows the last end. -/
structure Output where
  ended : List (Line × LineEnd)
  last : Line

def Output.text (output : Output) : List Char :=
  (output.ended.flatMap fun entry ↦ entry.1.text ++ entry.2.text '\n' '\r') ++ output.last.text

def Output.items (output : Output) : List Item :=
  output.ended.flatMap (·.1.items) ++ output.last.items

variable {output : Output}

theorem mem_numbers_iff {items : List Item} {x : Int} :
    x ∈ numbers items ↔ .number x ∈ items := by
  rw [numbers, List.mem_filterMap]
  constructor
  · rintro ⟨item, hitem, hx⟩
    cases item <;> cases hx
    exact hitem
  · exact fun h ↦ ⟨_, h, rfl⟩

theorem lines_text (output : Output) : Text.lines output.text =
    output.ended.map (fun entry ↦ entry.2.cut '\r' entry.1.text) ++
      if output.last.text = [] then [] else [output.last.text] :=
  Text.linesAt_flatMap (by decide) (fun _ _ ↦ feed_not_mem_text) feed_not_mem_text

/-- **An output** tells what was written in its lines. -/
theorem items?_encode_text (h : ∀ x ∈ numbers output.items,
    Text.readInteger? (toString x).toList = some x) :
    items? (Text.encode output.text) = some output.items := by
  have hended : (output.ended.map fun entry ↦ entry.2.cut '\r' entry.1.text).mapM itemsOf? =
      some (output.ended.map (·.1.items)) := by
    rw [List.mapM_map]
    refine Fallible.mapM_eq_pure_map fun entry hentry ↦ ?_
    obtain ⟨line, htext, hitems⟩ := exists_text_eq_cut entry.1 entry.2
    rw [Function.comp_apply, htext, ← hitems]
    refine itemsOf?_text fun x hx ↦ h x (mem_numbers_iff.mpr (List.mem_append_left _ ?_))
    exact List.mem_flatMap.mpr ⟨entry, hentry, hitems ▸ hx⟩
  have hlast : ∃ itemss, (if output.last.text = [] then [] else [output.last.text]).mapM itemsOf? =
      some itemss ∧ itemss.flatten = output.last.items := by
    have hitems : itemsOf? output.last.text = some output.last.items :=
      itemsOf?_text fun x hx ↦ h x (mem_numbers_iff.mpr (List.mem_append_right _ hx))
    by_cases hnil : output.last.text = []
    · -- an empty text is no line, and as a line it would tell nothing
      rw [hnil] at hitems
      rw [if_pos hnil]
      exact ⟨[], rfl, Option.some.inj hitems⟩
    · rw [if_neg hnil]
      exact ⟨[output.last.items], by simp [hitems], List.flatten_singleton⟩
  obtain ⟨itemss, hmapM, hflatten⟩ := hlast
  rw [items?, Text.storedLines_encode, lines_text, List.mapM_map]
  change (List.mapM itemsOf? _).map List.flatten = _
  rw [List.mapM_append, hended, hmapM]
  change some (output.ended.map (·.1.items) ++ itemss).flatten = _
  rw [List.flatten_append, hflatten, ← List.flatMap_def, Output.items]

theorem Line.values_mem_items {x : Int} (h : .number x ∈ line.items) : .values ∈ line.items := by
  cases line with
  | values first rest => exact List.mem_cons_self
  | _ => simp [Line.items] at h

theorem Output.values_mem_items {x : Int} (h : x ∈ numbers output.items) :
    .values ∈ output.items := by
  rcases List.mem_append.mp (mem_numbers_iff.mp h) with h | h
  · obtain ⟨entry, hentry, hx⟩ := List.mem_flatMap.mp h
    exact List.mem_append_left _ (List.mem_flatMap.mpr ⟨entry, hentry, Line.values_mem_items hx⟩)
  · exact List.mem_append_right _ (Line.values_mem_items h)

/-! ## Values of a model -/

section Values

variable {n : Nat} {literals : List Literal}

/-- The numbers of literals with a zero after them. -/
def closedNumbers (literals : List Literal) : List Int :=
  literals.map Literal.toInt ++ [0]

theorem filterMap_closedNumbers : (closedNumbers literals).filterMap Literal.ofInt? = literals := by
  simp [closedNumbers, List.filterMap_append, List.filterMap_map, Literal.ofInt?_eq_none_iff.mpr]

theorem count_closedNumbers : (closedNumbers literals).count 0 = 1 := by
  have hmem : 0 ∉ literals.map Literal.toInt := by
    rintro h
    obtain ⟨l, -, hl⟩ := List.mem_map.mp h
    exact absurd (Literal.natAbs_toInt l) (hl ▸ (Nat.succ_ne_zero l.var).symm)
  rw [closedNumbers, List.count_append, List.count_eq_zero_of_not_mem hmem,
    List.count_singleton_self]

theorem natAbs_le_of_mem_closedNumbers (h : ∀ l ∈ literals, l.var < n) {x : Int}
    (hx : x ∈ closedNumbers literals) : x.natAbs ≤ n := by
  rcases List.mem_append.mp hx with hx | hx
  · obtain ⟨l, hl, rfl⟩ := List.mem_map.mp hx
    rw [Literal.natAbs_toInt]
    exact h l hl
  · rw [List.mem_singleton.mp hx]
    exact Nat.zero_le n

/-- What an output tells is known if its numbers are in bounds, and can be taken in if there are one
status and one zero at most. -/
theorem read?_eq_of_admits {v : Verdict} (hn : n < signBound)
    (hadmits : Admits n {} output.items) (hv : verdict n (after {} output.items) = v) :
    read? n (Text.encode output.text) = some (.ok v) := by
  have hread : ∀ x ∈ numbers output.items, Text.readInteger? (toString x).toList = some x := by
    intro x hx
    have hbound := hadmits.bound x hx
    exact Text.readInteger?_toString (by omega) (by omega)
  rw [read?, if_pos hn]
  exact congrArg some (read_eq_ok_iff.mpr ⟨_, items?_encode_text hread, hadmits, hv⟩)

end Values

/-- **Reading back.** A solver prints the literals of a partial assignment, in any order and spread
over any value lines, and a zero after them. If the status says that there is a model, this is the
assignment. If it says that there is none, the values are not looked at, and neither are they
without a status. -/
theorem read?_encode_text (m : Assignment) (literals : List Literal) (output : Output)
    (hsize : m.values.size < signBound)
    (hliterals : ∀ l, l ∈ literals ↔ m.satisfies l = true) :
    (statuses output.items = [true] → numbers output.items = closedNumbers literals →
      read? m.values.size (Text.encode output.text) = some (.ok (.satisfiable m))) ∧
    (statuses output.items = [false] →
      numbers output.items = [] ∨ numbers output.items = closedNumbers literals →
      read? m.values.size (Text.encode output.text) = some (.ok .unsatisfiable)) ∧
    (statuses output.items = [] →
      numbers output.items = [] ∨ numbers output.items = closedNumbers literals →
      read? m.values.size (Text.encode output.text) = some (.ok .unknown)) := by
  have hvar : ∀ l ∈ literals, l.var < m.values.size := fun l hl ↦
    Assignment.var_lt_of_satisfies ((hliterals l).mp hl)
  have hadmits (hstatus : (statuses output.items).length ≤ 1)
      (hnumbers : numbers output.items = [] ∨ numbers output.items = closedNumbers literals) :
      Admits m.values.size {} output.items := by
    refine ⟨by simpa using hstatus, ?_, ?_⟩
    · rcases hnumbers with h | h <;> simp [h, count_closedNumbers]
    · rcases hnumbers with h | h <;> rw [h]
      · exact List.forall_mem_nil _
      · exact fun x ↦ natAbs_le_of_mem_closedNumbers hvar
  refine ⟨fun hstatus hnumbers ↦ ?_, fun hstatus hnumbers ↦ ?_, fun hstatus hnumbers ↦ ?_⟩
  · have hadmits := hadmits (by simp [hstatus]) (.inr hnumbers)
    have hzero : 0 ∈ numbers output.items := hnumbers ▸ List.mem_append_right _ (by simp)
    have htells : TellsModel m.values.size output.items :=
      ⟨hstatus, output.values_mem_items hzero, by simpa using hadmits.zero, hadmits.bound⟩
    have hprinted : m = .ofLiterals m.values.size (printed output.items) := by
      rw [printed, hnumbers, filterMap_closedNumbers, Assignment.ofLiterals_eq hliterals]
    exact read?_eq_of_admits hsize hadmits
      (verdict_after_eq_satisfiable_iff.mpr ⟨htells, hprinted⟩).2
  · refine read?_eq_of_admits hsize (hadmits (by simp [hstatus]) hnumbers) ?_
    simp [verdict, after, hstatus]
  · refine read?_eq_of_admits hsize (hadmits (by simp [hstatus]) hnumbers) ?_
    simp [verdict, after, hstatus]

/-- Values of two variables of three, with all kinds of lines around them. -/
def sampleOutput (status : List (Line × LineEnd)) : Output where
  ended :=
    [(.comment "solved\r".toList (by decide), .feed), (.values (some (-2)) [], .returnFeed)] ++
    status ++ [(.bareValues, .feed), (.values none [(.tab, some 1), (.space, some 0)], .feed),
      (.empty, .returnFeed)]
  last := .bareComment

/-- The literals of the sample stand on two lines, with the status and a bare `v` in between. -/
theorem read?_sampleOutput :
    (sampleOutput [(.status true, .feed)]).text =
      "c solved\r\nv -2\r\ns SATISFIABLE\nv\nv \t1 0\n\r\nc".toList ∧
    read? 3 (Text.encode (sampleOutput [(.status true, .feed)]).text) =
      some (.ok (.satisfiable ⟨#[some true, some false, none]⟩)) ∧
    read? 3 (Text.encode (sampleOutput [(.status false, .feed)]).text) = some (.ok .unsatisfiable) ∧
    read? 3 (Text.encode (sampleOutput []).text) = some (.ok .unknown) := by
  have hliterals : ∀ l, l ∈ [Literal.neg 1, .pos 0] ↔
      Assignment.satisfies ⟨#[some true, some false, none]⟩ l = true := by
    rintro ⟨_ | _ | _ | v, _ | _⟩ <;>
      simp [Literal.neg, Literal.pos, Assignment.satisfies, Assignment.value?]
  have hread (status : List (Line × LineEnd)) := read?_encode_text
    ⟨#[some true, some false, none]⟩ [.neg 1, .pos 0] (sampleOutput status) (by decide) hliterals
  exact ⟨by decide +kernel,
    (hread [(.status true, .feed)]).1 (by decide +kernel) (by decide +kernel),
    (hread [(.status false, .feed)]).2.1 (by decide +kernel) (.inr (by decide +kernel)),
    (hread []).2.2 (by decide +kernel) (.inr (by decide +kernel))⟩

end Answer

end LiftedPlanning.Cnf
