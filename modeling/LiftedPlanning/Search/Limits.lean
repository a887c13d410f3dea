import LiftedPlanning.Text.Binary64

/-!
# Limits of a search

A search may be limited in its number of steps and in its time, and it may be cancelled. Times are
counted in nanoseconds. The search time runs from the start of the search, the total time from a
moment that the caller chooses.
-/

namespace LiftedPlanning

/-- Why a search may not go on. -/
inductive StopReason
  | cancelled
  | steps (limit : Nat)
  | searchTime (limit : Nat)
  | totalTime (limit : Nat)
  deriving DecidableEq, Repr

def nanosPerSecond : Nat := 1000000000

/-- A time in seconds with three decimals. The seconds and the fraction are floating-point numbers
before they are added. -/
def secondsText (nanoseconds : Nat) : String :=
  let whole := Text.Binary64.nearest false (nanoseconds / nanosPerSecond) 1
  let fraction := Text.Binary64.nearest false (nanoseconds % nanosPerSecond) nanosPerSecond
  let (a, b) := whole.magnitude?.getD (0, 1)
  let (c, d) := fraction.magnitude?.getD (0, 1)
  let sum := Text.Binary64.nearest false (a * d + c * b) (b * d)
  let (num, den) := sum.magnitude?.getD (0, 1)
  let thousandths := Text.roundHalfEven (num * 1000) den
  Text.Binary64.positional thousandths (-3)

/-- The wording of the reasons; limits of time are given in seconds. -/
def StopReason.text : StopReason → String
  | .cancelled => "search cancelled"
  | .steps limit => s!"maximal number of iterations ({limit}) reached"
  | .searchTime limit =>
    let limit := secondsText limit
    s!"maximal search time ({limit}s) reached"
  | .totalTime limit =>
    let limit := secondsText limit
    s!"maximal total time ({limit}s) reached"

/-- Limits and the moments that the times are counted from; limits that are not set do not count. -/
structure SearchLimits where
  maxSteps : Option Nat := none
  maxSearchTime : Option Nat := none
  maxTotalTime : Option Nat := none
  searchStart : Nat := 0
  totalStart : Nat := 0
  deriving DecidableEq, Repr

namespace SearchLimits

/-- Why the search may not go on to a number of steps, at a moment; the first reason counts. -/
def exceeded? (limits : SearchLimits) (cancelled : Bool) (now steps : Nat) : Option StopReason :=
  if cancelled then
    some .cancelled
  else if let some limit := limits.maxSteps.filter (· < steps) then
    some (.steps limit)
  else if let some limit := limits.maxSearchTime.filter (· < now - limits.searchStart) then
    some (.searchTime limit)
  else if let some limit := limits.maxTotalTime.filter (· < now - limits.totalStart) then
    some (.totalTime limit)
  else
    none

/-- Whether the search may go on to a number of steps. -/
def allows (limits : SearchLimits) (cancelled : Bool) (now steps : Nat) : Bool :=
  (limits.exceeded? cancelled now steps).isNone

end SearchLimits

end LiftedPlanning
