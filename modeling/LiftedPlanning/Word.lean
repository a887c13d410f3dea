/-!
# Machine words

Numbers that users and solvers hand over, and numbers of variables, are held in 64-bit words. The
bounds are written out so that they are plain numerals.
-/

namespace LiftedPlanning

/-- The number of words: the unsigned words are the natural numbers below it. -/
def wordCount : Nat := 0x10000000000000000

/-- The signed words are the integers from `-signBound` on and below `signBound`. -/
def signBound : Nat := 0x8000000000000000

end LiftedPlanning
