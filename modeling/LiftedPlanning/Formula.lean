import LiftedPlanning.Condition

/-!
# Formulas

Preconditions and effects are formulas over conditions. The encoding and the grounding only deal
with conjunctions of conditions, so a formula is split into its flat part, the conditions it
demands outright, and its residual, the disjunctions that cannot be expressed that way. A
disjunction of a single operand is no choice at all and is flattened with the rest.
-/

namespace LiftedPlanning

/-- A condition, a conjunction or a disjunction; an empty disjunction is false. -/
inductive Formula
  | literal (c : Condition)
  | conj (fs : List Formula)
  | disj (fs : List Formula)

namespace Formula

/-- The formula that demands nothing. -/
def truth : Formula := .conj []

instance : Inhabited Formula := ⟨truth⟩

def ofConditions (cs : List Condition) : Formula :=
  .conj (cs.map .literal)

/-- Demands `g` beside `f`; a conjunction is extended at its end. -/
def and : Formula → Formula → Formula
  | .conj fs, g => .conj (fs ++ [g])
  | f, g => .conj [f, g]

/-! ## Conditions of a formula -/

mutual

/-- All the conditions of a formula, from left to right. -/
def conditions : Formula → List Condition
  | .literal c => [c]
  | .conj fs => conditionsAll fs
  | .disj fs => conditionsAll fs

def conditionsAll : List Formula → List Condition
  | [] => []
  | f :: fs => conditions f ++ conditionsAll fs

end

/-! ## Splitting -/

mutual

/-- The conditions that a formula demands outright, from left to right. -/
def flat : Formula → List Condition
  | .literal c => [c]
  | .conj fs => flatAll fs
  | .disj [f] => flat f
  | .disj _ => []

def flatAll : List Formula → List Condition
  | [] => []
  | f :: fs => flat f ++ flatAll fs

end

mutual

/-- The proper disjunctions that a formula demands, from left to right. -/
def choices : Formula → List Formula
  | .literal _ => []
  | .conj fs => choicesAll fs
  | .disj [f] => choices f
  | .disj fs => [.disj fs]

def choicesAll : List Formula → List Formula
  | [] => []
  | f :: fs => choices f ++ choicesAll fs

end

/-- What is left of a formula without its flat part; `none` if nothing is. -/
def residual (f : Formula) : Option Formula :=
  match choices f with
  | [] => none
  | [g] => some g
  | gs => some (.conj gs)

/-- The conditions of a formula that is a conjunction of conditions. -/
def flat? (f : Formula) : Option (List Condition) :=
  match residual f with
  | none => some (flat f)
  | some _ => none

end Formula

end LiftedPlanning
