/-!
# Handles

The elements of a problem are referred to by their place in the list they were registered in. A
handle is such a place together with the kind of list it points into, so that the handle of a
constant cannot be taken for the handle of a type.
-/

namespace LiftedPlanning

/-- The kinds of elements that have handles; a parameter is a variable of an operator. -/
inductive HandleKind
  | type
  | constant
  | predicate
  | parameter
  | operator
  | atom
  deriving DecidableEq, Repr

/-- The word that handles of a kind are printed with. -/
def HandleKind.text : HandleKind → String
  | .type => "TypeId"
  | .constant => "ConstantId"
  | .predicate => "PredicateId"
  | .parameter => "VariableId"
  | .operator => "OperatorId"
  | .atom => "AtomId"

/-- A place in the registration order of the elements of one kind. -/
structure Handle (kind : HandleKind) where
  /-- The number of elements registered before. -/
  index : Nat
  deriving DecidableEq, Repr

abbrev TypeId := Handle .type
abbrev ConstantId := Handle .constant
abbrev PredicateId := Handle .predicate
/-- The handle of a parameter of some operator. -/
abbrev VariableId := Handle .parameter
abbrev OperatorId := Handle .operator
abbrev AtomId := Handle .atom

/-- A handle reads as its kind and its place, like `ConstantId#3`. -/
def Handle.text {kind : HandleKind} (h : Handle kind) : String :=
  s!"{kind.text}#{h.index}"

/-- The handles of the first `n` elements, in registration order. -/
def Handle.first {kind : HandleKind} (n : Nat) : List (Handle kind) :=
  (List.range n).map Handle.mk

end LiftedPlanning
