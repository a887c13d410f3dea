import LiftedPlanning.Explanation
import LiftedPlanning.Word

/-!
# Numbers in texts

Decimal numbers as users and solvers write them: an optional sign and ASCII digits. They are held in
64-bit words, so a number may be too large, and of a bad digit and an overflow the one that comes
first in the text is reported.
-/

namespace LiftedPlanning.Text

/-- The value of an ASCII digit. -/
def digitValue? (c : Char) : Option Nat :=
  if '0' ≤ c ∧ c ≤ '9' then some (c.toNat - '0'.toNat) else none

inductive NumberError
  | empty
  | badDigit
  | tooLarge
  deriving DecidableEq, Repr

instance : Explained NumberError where
  chain
    | .empty => ["cannot parse integer from empty string"]
    | .badDigit => ["invalid digit found in string"]
    | .tooLarge => ["number too large to fit in target type"]

/-- Reads the remaining digits of a number below `bound`, `n` being the value of the ones before. -/
def digitsBelow (bound : Nat) : Nat → List Char → Except NumberError Nat
  | n, [] => .ok n
  | n, c :: cs =>
    match digitValue? c with
    | none => .error .badDigit
    | some d => if 10 * n + d < bound then digitsBelow bound (10 * n + d) cs else .error .tooLarge

/-- Reads a non-empty sequence of digits. -/
def naturalBelow (bound : Nat) : List Char → Except NumberError Nat
  | [] => .error .badDigit
  | cs => digitsBelow bound 0 cs

/-- Reads an unsigned word; a plus may come before the digits. -/
def readWord : List Char → Except NumberError Nat
  | [] => .error .empty
  | '+' :: cs => naturalBelow wordCount cs
  | cs => naturalBelow wordCount cs

/-- Reads a signed word; a sign may come before the digits. -/
def readInteger? : List Char → Option Int
  | '-' :: cs => (naturalBelow (signBound + 1) cs).toOption.map fun n ↦ -(n : Int)
  | '+' :: cs => (naturalBelow signBound cs).toOption.map Int.ofNat
  | cs => (naturalBelow signBound cs).toOption.map Int.ofNat

end LiftedPlanning.Text
