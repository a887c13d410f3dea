import LiftedPlanning.CommandLine.Run

/-!
# The program

Runs the command line on the machine: files, the clock and the two output channels. Programs are
not started from here, so external solvers are reported as missing.
-/

namespace LiftedPlanning.Main

open CommandLine

/-- The cause behind a fault of the file system. -/
def fileError : IO.Error → FileError
  | .noFileOrDirectory .. => .noEntry
  | .permissionDenied .. => .noPermission
  | .inappropriateType .. => .isDirectory
  | .resourceExhausted .. => .noSpace
  | e => .other (toString e)

/-- Does an action, and keeps the cause of its fault. -/
def guarded {α : Type} (action : IO α) : IO (Except FileError α) := do
  match ← action.toBaseIO with
  | .ok a => return .ok a
  | .error e => return .error (fileError e)

/-- A message, with its level in brackets. -/
def messageLine (level : Level) (text : String) : String :=
  let mark := level.text.pushn ' ' (5 - level.text.length)
  s!"[{mark}] {text}"

/-- The machine that the program runs on. -/
def machine : Host IO where
  log level text := IO.eprintln (messageLine level text)
  print := IO.print
  fetch path := return (← guarded (IO.FS.readBinFile path)).map ByteArray.toList
  save path text := guarded (IO.FS.writeFile path text)
  locate path := return (← guarded (IO.FS.realPath path)).map toString
  execute _ _ _ := return .error .noEntry
  now := IO.monoNanosNow

end LiftedPlanning.Main

/-- Runs the command line, and leaves with its exit code. -/
def main (arguments : List String) : IO UInt32 := do
  let ending ← LiftedPlanning.CommandLine.run LiftedPlanning.Main.machine arguments
  return ending.code
