/-!
# Log messages

Messages have a level, and a threshold decides which of them are shown.
-/

namespace LiftedPlanning.CommandLine

/-- The importance of a message. -/
inductive Level
  | error
  | warn
  | info
  | debug
  | trace
  deriving DecidableEq, Repr

namespace Level

def text : Level → String
  | .error => "ERROR"
  | .warn => "WARN"
  | .info => "INFO"
  | .debug => "DEBUG"
  | .trace => "TRACE"

/-- The number of levels that are more important. -/
def rank : Level → Nat
  | .error => 0
  | .warn => 1
  | .info => 2
  | .debug => 3
  | .trace => 4

end Level

/-- The least important level that is shown; with `none`, nothing is. -/
abbrev Threshold := Option Level

/-- Whether a threshold lets a level through. -/
def Threshold.shows (threshold : Threshold) (level : Level) : Bool :=
  threshold.any (level.rank ≤ ·.rank)

/-- The thresholds by the names that users give them. -/
def Threshold.names : List (String × Threshold) :=
  [("trace", some .trace), ("debug", some .debug), ("info", some .info), ("warn", some .warn),
    ("error", some .error), ("off", none)]

end LiftedPlanning.CommandLine
