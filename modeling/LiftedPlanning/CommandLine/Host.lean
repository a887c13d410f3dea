import LiftedPlanning.CommandLine.Log

/-!
# Hosts

A host gives a command access to the world outside: files, programs, a clock and the two output
channels. What a command does is a function of its host.
-/

namespace LiftedPlanning.CommandLine

/-- Why a request about a file fails. -/
inductive FileError
  | noEntry
  | noPermission
  | notDirectory
  | isDirectory
  | noSpace
  | nameTooLong
  /-- Any other cause, in the words of the host. -/
  | other (cause : String)
  deriving DecidableEq, Repr

def FileError.text : FileError → String
  | .noEntry => "No such file or directory (os error 2)"
  | .noPermission => "Permission denied (os error 13)"
  | .notDirectory => "Not a directory (os error 20)"
  | .isDirectory => "Is a directory (os error 21)"
  | .noSpace => "No space left on device (os error 28)"
  | .nameTooLong => "File name too long (os error 36)"
  | .other cause => cause

/-- Access to the world outside. -/
structure Host (m : Type → Type) where
  log : Level → String → m Unit
  print : String → m Unit
  /-- The bytes of a file. -/
  fetch : String → m (Except FileError (List UInt8))
  save : String → String → m (Except FileError Unit)
  /-- The full path of something that exists. -/
  locate : String → m (Except FileError String)
  /-- The output of a program with options and an input. -/
  execute : String → List String → String → m (Except FileError (List UInt8))
  /-- The current moment in nanoseconds. -/
  now : m Nat

/-- The host that only shows the messages that a threshold lets through. -/
def Host.filtered {m : Type → Type} [Monad m] (host : Host m) (threshold : Threshold) : Host m :=
  { host with
    log := fun level text ↦ if threshold.shows level then host.log level text else pure () }

end LiftedPlanning.CommandLine
