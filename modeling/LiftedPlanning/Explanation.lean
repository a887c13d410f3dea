/-!
# Explanations of failures

A failure is explained by a chain of texts: what was being done, outermost first, and the cause
last. Every stage of the library has its own type of failures, a list of causes, and says here how
each of them reads. The wording is never part of the failure itself.
-/

namespace LiftedPlanning

/-- Failures that are explained by a chain of texts. -/
class Explained (ε : Type) where
  /-- The texts of the chain: the outermost activity first, the cause last. -/
  chain : ε → List String

/-- The whole chain on one line. -/
def explain {ε : Type} [Explained ε] (e : ε) : String :=
  ": ".intercalate (Explained.chain e)

end LiftedPlanning
