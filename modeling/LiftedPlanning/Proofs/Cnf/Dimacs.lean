import LiftedPlanning.Cnf.Store
import LiftedPlanning.Proofs.Cnf.Literal
import LiftedPlanning.Proofs.Fallible
import LiftedPlanning.Proofs.Text.Line
import LiftedPlanning.Proofs.Text.Number

/-!
# Reading instances back

An instance in the DIMACS format starts with comment lines, whose first letter is a `c`. Then comes
the header `p cnf V C`, and then a line for each of the `C` clauses: the numeric forms of its
literals, which are not beyond the variable `V`, and a zero. Every line is ended by a newline, and
what belongs together in a line is separated by single spaces. The reader refuses everything else.

The instances of a store are of this form and say what the store and the assumptions of the call
say. This is an invariant of stores: whatever a solver was told, its comments have no newlines, and
its variables have been counted.
-/

namespace LiftedPlanning.Cnf

/-! ## The reader -/

namespace Dimacs

/-- What an instance says. -/
structure Instance where
  /-- The comment lines, each with its first letter. -/
  comments : List (List Char)
  varCount : Nat
  clauses : List Clause
  deriving DecidableEq, Repr

/-- The lines of a text in which every line is ended. -/
def lines? (text : List Char) : Option (List (List Char)) :=
  let fields := Text.fields '\n' text
  if fields.getLast? = some [] then some fields.dropLast else none

def isComment (line : List Char) : Bool :=
  line.head? = some 'c'

/-- The numbers of variables and clauses in a header. -/
def header? (line : List Char) : Option (Nat × Nat) :=
  match Text.fields ' ' line with
  | [['p'], ['c', 'n', 'f'], varCount, clauseCount] => do
    return (← Text.natural? varCount, ← Text.natural? clauseCount)
  | _ => none

/-- The clause of a line, over the variables up to a number. The only zero is the last number. -/
def clause? (varCount : Nat) (line : List Char) : Option Clause := do
  let numbers ← (Text.fields ' ' line).mapM Text.integer?
  let literals ← numbers.dropLast.mapM Literal.ofInt?
  if numbers.getLast? = some 0 ∧ ∀ l ∈ literals, l.number ≤ varCount then some literals else none

def read? (text : List Char) : Option Instance := do
  let lines ← lines? text
  match lines.dropWhile isComment with
  | [] => none
  | header :: rest =>
    let (varCount, clauseCount) ← header? header
    let clauses ← rest.mapM (clause? varCount)
    if clauses.length = clauseCount then
      some ⟨lines.takeWhile isComment, varCount, clauses⟩
    else
      none

theorem lines?_flatMap {lines : List (List Char)} (h : ∀ line ∈ lines, '\n' ∉ line) :
    lines? (lines.flatMap (· ++ ['\n'])) = some lines := by
  have hfields := Text.fields_flatMap h (List.not_mem_nil (a := '\n'))
  rw [List.append_nil] at hfields
  rw [lines?, hfields]
  simp

/-- What is read: comments, a header that counts the clauses, and the clauses. -/
theorem read?_eq_some_iff {text : List Char} {i : Instance} :
    read? text = some i ↔ ∃ header rest, lines? text = some (i.comments ++ header :: rest) ∧
      (∀ line ∈ i.comments, isComment line = true) ∧ isComment header = false ∧
      header? header = some (i.varCount, i.clauses.length) ∧
      rest.mapM (clause? i.varCount) = some i.clauses := by
  obtain ⟨comments, varCount, clauses⟩ := i
  simp only [read?, Option.bind_eq_bind, Option.bind_eq_some_iff]
  constructor
  · rintro ⟨lines, hlines, h⟩
    have hsplit := List.takeWhile_append_dropWhile (p := isComment) (l := lines)
    have hnot := List.head?_dropWhile_not isComment lines
    split at h
    · cases h
    · rename_i header rest hdrop
      rw [hdrop] at hsplit hnot
      simp only [Option.bind_eq_some_iff, Option.ite_none_right_eq_some] at h
      obtain ⟨⟨n, k⟩, hheader, cs, hclauses, rfl, h⟩ := h
      obtain ⟨rfl, rfl, rfl⟩ := Instance.mk.inj (Option.some.inj h)
      refine ⟨header, rest, by rw [hsplit, hlines], ?_, hnot, hheader, hclauses⟩
      exact List.all_eq_true.mp List.all_takeWhile
  · rintro ⟨header, rest, hlines, hcomments, hnot, hheader, hclauses⟩
    have hdrop : (comments ++ header :: rest).dropWhile isComment = header :: rest := by
      rw [List.dropWhile_append_of_pos hcomments, List.dropWhile_cons_of_neg (by simp [hnot])]
    have htake : (comments ++ header :: rest).takeWhile isComment = comments := by
      rw [List.takeWhile_append_of_pos hcomments, List.takeWhile_cons_of_neg (by simp [hnot]),
        List.append_nil]
    refine ⟨_, hlines, ?_⟩
    simp only [hdrop, htake, hheader, hclauses, Option.bind_some, if_true]

end Dimacs

/-! ## Written lines -/

namespace Store

open Dimacs

/-- The line of a comment, without its end. -/
def commentText (line : List Char) : List Char :=
  'c' :: ' ' :: line

def headerText (varCount clauseCount : Nat) : List Char :=
  [['p'], ['c', 'n', 'f'], (toString varCount).toList].flatMap (· ++ [' ']) ++
    (toString clauseCount).toList

def clauseText (c : Clause) : List Char :=
  (c.flatMap fun l ↦ l.text.toList ++ [' ']) ++ ['0']

variable {s : Store} {assumptions : List Literal}

def instanceLines (s : Store) (assumptions : List Literal) : List (List Char) :=
  let clauses := s.instanceClauses assumptions
  s.comments.map commentText ++ headerText s.varCount clauses.length :: clauses.map clauseText

theorem toList_commentLine (line : List Char) :
    (commentLine line).toList = commentText line ++ ['\n'] :=
  String.toList_ofList

theorem toList_headerLine (varCount clauseCount : Nat) :
    (headerLine varCount clauseCount).toList = headerText varCount clauseCount ++ ['\n'] := by
  have hspace : " ".toList = [' '] := rfl
  have hnewline : "\n".toList = ['\n'] := rfl
  have hstart : "p cnf ".toList = ['p', ' ', 'c', 'n', 'f', ' '] := rfl
  have htext : (headerLine varCount clauseCount).toList = "p cnf ".toList ++
      (toString varCount).toList ++ " ".toList ++ (toString clauseCount).toList ++ "\n".toList := by
    rw [headerLine]
    simp only [String.toList_append]
    rfl
  rw [htext, hspace, hnewline, hstart, headerText]
  simp

theorem toList_clauseLine (c : Clause) : (clauseLine c).toList = clauseText c ++ ['\n'] := by
  have hspace : " ".toList = [' '] := rfl
  have hend : "0\n".toList = ['0'] ++ ['\n'] := rfl
  simp only [clauseLine, clauseText, String.toList_append, String.toList_join, List.flatMap_map,
    hspace, hend, List.append_assoc]

theorem toList_dimacs :
    (s.dimacs assumptions).toList = (s.instanceLines assumptions).flatMap (· ++ ['\n']) := by
  simp only [dimacs, instanceLines, String.toList_append, String.toList_join, List.flatMap_map,
    List.flatMap_append, List.flatMap_cons, toList_commentLine, toList_headerLine,
    toList_clauseLine, List.append_assoc]

/-! ## Reading written lines -/

theorem not_mem_toString {z : Int} {c : Char} (hc : c = ' ' ∨ c = '\n') :
    c ∉ (toString z).toList := by
  intro h
  rcases hc with rfl | rfl <;> rcases Text.isDigit_or_of_mem_toString h with h | h <;>
    exact absurd h (by decide)

theorem fields_clauseText (c : Clause) :
    Text.fields ' ' (clauseText c) = c.map (·.text.toList) ++ [['0']] := by
  rw [clauseText, ← Text.fields_flatMap, List.flatMap_map]
  · rw [List.forall_mem_map]
    exact fun l _ ↦ not_mem_toString (.inl rfl)
  · decide

/-- **Clause lines** are read back. -/
theorem clause?_clauseText {n : Nat} {c : Clause} (h : ∀ l ∈ c, l.number ≤ n) :
    clause? n (clauseText c) = some c := by
  have hnumbers : (Text.fields ' ' (clauseText c)).mapM Text.integer? =
      some (c.map Literal.toInt ++ [0]) := by
    rw [fields_clauseText, Fallible.mapM_eq_some_iff]
    refine List.rel_append (List.forall₂_map_left_iff.mpr (List.forall₂_map_right_iff.mpr
      (List.forall₂_same.mpr fun l _ ↦ Text.integer?_toString l.toInt))) (.cons ?_ .nil)
    decide
  have hliterals : (c.map Literal.toInt ++ [0]).dropLast.mapM Literal.ofInt? = some c := by
    rw [List.dropLast_concat, Fallible.mapM_eq_some_iff]
    exact List.forall₂_map_left_iff.mpr (List.forall₂_same.mpr fun l _ ↦ Literal.ofInt?_toInt l)
  simp only [clause?, hnumbers, hliterals, Option.bind_eq_bind, Option.bind_some]
  rw [if_pos ⟨List.getLast?_concat, h⟩]

/-- **Headers** are read back. -/
theorem header?_headerText (varCount clauseCount : Nat) :
    header? (headerText varCount clauseCount) = some (varCount, clauseCount) := by
  have hspace : ∀ n : Nat, ' ' ∉ (toString n).toList := fun _ ↦
    Text.not_mem_toString_of_isDigit rfl
  have hfields : Text.fields ' ' (headerText varCount clauseCount) =
      [['p'], ['c', 'n', 'f'], (toString varCount).toList, (toString clauseCount).toList] := by
    rw [headerText, Text.fields_flatMap _ (hspace _)]
    · rfl
    · simp only [List.forall_mem_cons]
      exact ⟨by decide, by decide, hspace _, List.forall_mem_nil _⟩
  rw [header?, hfields]
  simp only [Text.natural?_toString, Option.bind_eq_bind, Option.bind_some]
  rfl

/-! ## Stores -/

/-- A store that can be read back: its comments are single lines, and its variables are counted. -/
structure IsReadable (s : Store) : Prop where
  comments : ∀ line ∈ s.comments, '\n' ∉ line
  clauses : ∀ c ∈ s.clauses, ∀ l ∈ c, l.number ≤ s.varCount

theorem IsReadable.not_mem_instanceLines (h : s.IsReadable) (assumptions : List Literal) :
    ∀ line ∈ s.instanceLines assumptions, '\n' ∉ line := by
  have hnumber : ∀ n : Nat, '\n' ∉ (toString n).toList := fun _ ↦
    Text.not_mem_toString_of_isDigit rfl
  simp only [instanceLines, List.forall_mem_append, List.forall_mem_cons, List.forall_mem_map]
  refine ⟨fun line hline ↦ ?_, ?_, fun c _ ↦ ?_⟩
  · simp [commentText, h.comments line hline]
  · simpa [headerText] using And.intro (hnumber s.varCount)
      (hnumber (s.instanceClauses assumptions).length)
  · simp only [clauseText, List.mem_append, List.mem_flatMap, not_or, not_exists, not_and]
    refine ⟨fun l _ ↦ ⟨not_mem_toString (.inr rfl), by decide⟩, by decide⟩

/-- **Instances** are read back: after the comments come the clauses of the store, in order, and the
assumptions as unit clauses. -/
theorem IsReadable.read?_dimacs (h : s.IsReadable) (ha : ∀ l ∈ assumptions, l.number ≤ s.varCount) :
    read? (s.dimacs assumptions).toList =
      some ⟨s.comments.map commentText, s.varCount, s.instanceClauses assumptions⟩ := by
  have hlines : lines? (s.dimacs assumptions).toList = some (s.instanceLines assumptions) := by
    rw [toList_dimacs]
    exact lines?_flatMap (h.not_mem_instanceLines assumptions)
  refine read?_eq_some_iff.mpr ⟨_, _, hlines, ?_, rfl, header?_headerText _ _, ?_⟩
  · rw [List.forall_mem_map]
    exact fun _ _ ↦ rfl
  · rw [Fallible.mapM_eq_some_iff]
    refine List.forall₂_map_left_iff.mpr (List.forall₂_same.mpr fun c hc ↦ clause?_clauseText ?_)
    rcases List.mem_append.mp hc with hc | hc
    · exact h.clauses c hc
    · obtain ⟨l, hl, rfl⟩ := List.mem_map.mp hc
      exact List.forall_mem_singleton.mpr (ha l hl)

end Store

end LiftedPlanning.Cnf
