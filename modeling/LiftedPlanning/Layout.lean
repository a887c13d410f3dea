import LiftedPlanning.Layout.Tables
import LiftedPlanning.Mapping

/-!
# Layout of the variables of a step

A step of a plan is described by a block of variables, in this order:

* for every operator, whether it is active;
* for every operator, parameter position and eligible constant, whether the constant is selected;
* for every atom of the universe, whether it holds.

The variables are those of the tables that were handed out for the block; they are numbered from 1
there, and counted from 0 in literals. The block of step `k` is the layout of step 0 shifted by `k`
blocks.
-/

namespace LiftedPlanning

open Cnf (Literal)

/-- The block of some operators and atoms. -/
structure Layout where
  eligibility : Eligibility
  atomCount : Nat
  tables : Layout.Tables
  /-- The tables are those of as many operators as they have rows for. -/
  isAllotted : ∃ operators, tables = .allotted eligibility operators atomCount

/-- The ways in which a look-up of variables fails. -/
inductive LayoutError
  | notEligible (c : ConstantId) (position : Nat) (operator : OperatorId)
  /-- An operator or a position without variables. -/
  | outside
  deriving DecidableEq, Repr

instance : Explained LayoutError where
  chain
    | .notEligible c position operator =>
      [s!"{c.text} is not eligible at position {position} of {operator.text}"]
    | .outside => ["unknown handle"]

namespace Layout

/-- The layout of all the operators of an eligibility. -/
def ofEligibility (e : Eligibility) (atoms : Nat) : Layout :=
  ⟨e, atoms, .allotted e e.sets.length atoms, _, rfl⟩

/-- The layout of the first operators of an eligibility, if there are as many, and if the variables
can be counted in words. -/
def ofEligibility? (e : Eligibility) (operators atoms : Nat) : Option Layout :=
  if operators ≤ e.sets.length then
    match h : Tables.allotted? e operators atoms with
    | none => none
    | some tables => some ⟨e, atoms, tables, operators, Tables.eq_of_allotted? h⟩
  else
    none

def operatorCount (l : Layout) : Nat :=
  l.tables.active.length

def size (l : Layout) : Nat :=
  l.tables.size

def selectedCount (l : Layout) : Nat :=
  l.size - l.operatorCount - l.atomCount

def operators (l : Layout) : List OperatorId :=
  Handle.first l.operatorCount

def atoms (l : Layout) : List AtomId :=
  Handle.first l.atomCount

def positions (l : Layout) (op : OperatorId) : List Nat :=
  List.range (l.eligibility.arity op)

/-! ## Variables -/

/-- The number of the first selection variable of a position. -/
def firstSelected? (l : Layout) (op : OperatorId) (position : Nat) : Option Nat :=
  l.tables.selected[op.index]?.bind (·[position]?)

def active (l : Layout) (op : OperatorId) : Literal :=
  .pos ((l.tables.active[op.index]?).getD 1 - 1)

/-- The selection of the `i`-th eligible constant of a position. -/
def selected (l : Layout) (op : OperatorId) (position i : Nat) : Literal :=
  .pos ((l.firstSelected? op position).getD 1 - 1 + i)

def holds (l : Layout) (a : AtomId) : Literal :=
  .pos (l.tables.firstAtom - 1 + a.index)

/-- The eligible constants of a position, each with the literal that selects it. -/
def choices (l : Layout) (op : OperatorId) (position : Nat) : List (ConstantId × Literal) :=
  (l.eligibility.eligible op position).zipIdx.map fun (c, i) ↦ (c, l.selected op position i)

/-! ## Look-ups

Handles and places come from outside here. The literals that are looked up are words; places and
atoms are not compared with the size of the block, but those that lead out of the words have no
literal. -/

/-- `active`, for an operator of the layout. -/
def active? (l : Layout) (op : OperatorId) : Option Literal :=
  l.tables.active[op.index]?.bind Literal.ofNumber?

/-- `selected`, for an operator and a position of the layout. -/
def selected? (l : Layout) (op : OperatorId) (position i : Nat) : Option Literal :=
  (l.firstSelected? op position).bind fun first ↦ Literal.ofNumber? (first + i)

/-- `holds`, for any atom. -/
def holds? (l : Layout) (a : AtomId) : Option Literal :=
  Literal.ofNumber? (l.tables.firstAtom + a.index)

/-- The selection of a constant at a position. -/
def selectedConstant (l : Layout) (op : OperatorId) (position : Nat) (c : ConstantId) :
    Except LayoutError Literal :=
  match l.eligibility.eligible? op position with
  | none => .error .outside
  | some set =>
    match set.idxOf? c with
    | none => .error (.notEligible c position op)
    | some i =>
      match l.selected? op position i with
      | none => .error .outside
      | some literal => .ok literal

/-- The literals that say that an operator is active with the constants of a binding. -/
def conjunction (l : Layout) (b : Binding) : Except LayoutError (List Literal) :=
  match l.active? b.operator with
  | none => .error .outside
  | some active => do
    let selections ← b.pairs.mapM fun (slot, c) ↦ l.selectedConstant b.operator slot c
    return active :: selections

end Layout

end LiftedPlanning
