import LiftedPlanning.Cnf.Literal
import LiftedPlanning.Word

/-!
# Literals in machine words

The numeric forms of literals live in 64-bit words. Negating or shifting a literal is an arithmetic
operation on its word, and has no result if it leaves the range of signed words or reaches 0. The
encodings of this library stay far below these bounds, so that they use unbounded literals; where
numbers come from outside, the operations on words are the ones that count.
-/

namespace LiftedPlanning.Cnf

/-- A width of machine integers. -/
structure Width where
  bits : Nat
  signed : Bool
  deriving DecidableEq, Repr

namespace Width

def signed32 : Width := ⟨32, true⟩
def signed64 : Width := ⟨64, true⟩
def unsigned32 : Width := ⟨32, false⟩
def unsigned64 : Width := ⟨64, false⟩

/-- The integer of a width that a number is congruent to. -/
def wrap (w : Width) (n : Int) : Int :=
  let count := Nat.pow 2 w.bits
  if w.signed then n.bmod count else n % count

end Width

/-- Whether a number is a signed 64-bit word. -/
def isWord (n : Int) : Bool :=
  -(signBound : Int) ≤ n && n < signBound

/-- The variable that a word numbers, counted from 0. -/
def variableOfWord? (n : Int) : Option Nat :=
  if 0 < n then some (n.toNat - 1) else none

namespace Literal

def ofWord? (n : Int) : Option Literal :=
  if isWord n then ofInt? n else none

/-- The opposite literal, if it is a word. -/
def negateWord? (l : Literal) : Option Literal :=
  ofWord? (-l.toInt)

/-- The literal whose word stands for a number. The number is taken as a signed word, so that large
numbers count as negative; numbers that are no words stand for nothing. -/
def ofNumber? (n : Nat) : Option Literal :=
  if n < wordCount then ofWord? (Width.signed64.wrap n) else none

/-- The literal that a solver of 32 bits takes a literal for, which has to have an opposite. -/
def narrow? (l : Literal) : Option Literal :=
  let n := Width.signed32.wrap l.toInt
  if n = Width.signed32.wrap (-n) then none else ofInt? n

/-- The literal of the same sign whose word is `offset` further from 0. The offset is taken as a
signed word, so that large offsets count as negative. -/
def shiftWord? (l : Literal) (offset : Nat) : Option Literal :=
  let offset := Width.signed64.wrap offset
  ofWord? (if l.positive then l.toInt + offset else l.toInt - offset)

end Literal

/-- The clause, its words `offset` further from 0. -/
def Clause.shiftWord? (offset : Nat) (c : Clause) : Option Clause :=
  c.mapM (·.shiftWord? offset)

/-- Hands out consecutive variables, numbered from 1. -/
structure Allocator where
  count : Nat
  deriving DecidableEq, Repr

namespace Allocator

def empty : Allocator := ⟨0⟩

/-- The number of the first of `n` new variables. -/
def allocate (a : Allocator) (n : Nat) : Nat × Allocator :=
  (a.count + 1, ⟨a.count + n⟩)

/-- `allocate`, if the variables can still be counted in words. -/
def allocate? (a : Allocator) (n : Nat) : Option (Nat × Allocator) :=
  if a.count + n < wordCount ∧ a.count + 1 < wordCount then some (a.allocate n) else none

end Allocator

end LiftedPlanning.Cnf
