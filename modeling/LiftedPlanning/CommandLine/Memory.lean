import LiftedPlanning.CommandLine.Host
import LiftedPlanning.Text.Line

/-!
# A machine in memory

A host whose files are a table, so that running a command is a function of that table. Paths are
resolved as a file system does it: name by name, from the root or from the working directory; every
name but the last has to lead to a directory, and so has the last one if a slash follows it.
-/

namespace LiftedPlanning.CommandLine

/-- The names on the way from the root to a place. -/
abbrev Place := List String

/-- What may be at a place. -/
inductive Entry
  | directory
  | file (content : List UInt8)
  /-- A program, by its output for a list of options and an input. -/
  | program (output : List String → String → String)
  /-- A device that has nothing to read, and takes what is written to it or refuses it. -/
  | sink (refusal : Option FileError)
  /-- The device that prints what is written to it. -/
  | printer

/-- A machine in memory. -/
structure Memory where
  /-- The working directory. -/
  home : Place
  /-- What there is, apart from the root; of two entries for a place the first one counts. -/
  entries : List (Place × Entry)
  /-- The messages so far. -/
  messages : List (Level × String) := []
  /-- What was printed so far. -/
  printed : String := ""
  /-- The time in nanoseconds; every look at the clock takes `clockStep`. -/
  time : Nat := 0

namespace Memory

/-- The time that passes with a look at the clock, a millisecond. -/
def clockStep : Nat := 1000000

/-- The greatest length of a name, in bytes. -/
def nameLimit : Nat := 255

/-- The greatest length of a path that is opened for writing, in bytes. -/
def pathLimit : Nat := 4095

def entry? (m : Memory) : Place → Option Entry
  | [] => some .directory
  | place => m.entries.lookup place

/-- Goes along names, from a place with an entry. Leading up from the root leads to the root. -/
def walk (m : Memory) : Place → Entry → List String → Except FileError (Place × Entry)
  | place, entry, [] => .ok (place, entry)
  | place, .directory, name :: names =>
    if name = "" || name = "." then
      walk m place .directory names
    else if name = ".." then
      walk m place.dropLast .directory names
    else if nameLimit < name.utf8ByteSize then
      .error .nameTooLong
    else
      match m.entry? (place ++ [name]) with
      | some entry => walk m (place ++ [name]) entry names
      | none => .error .noEntry
  | _, _, _ :: _ => .error .notDirectory

/-- The names in a path, between its slashes. -/
def namesOf (path : String) : List String :=
  (Text.fields '/' path.toList).map String.ofList

/-- Goes along the names of a path. -/
def walkPath (m : Memory) (isAbsolute : Bool) (names : List String) :
    Except FileError (Place × Entry) :=
  walk m (if isAbsolute then [] else m.home) .directory names

/-- What a path leads to. -/
def resolve (m : Memory) (path : String) : Except FileError (Place × Entry) :=
  m.walkPath (path.startsWith "/") (namesOf path)

/-- The place that a path leads to when a file is to be written there, and what is there already.
The last name need not be there, but it may not be followed by a slash. -/
def target (m : Memory) (path : String) : Except FileError (Place × Option Entry) :=
  if pathLimit < path.utf8ByteSize then
    .error .nameTooLong
  else
    let names := namesOf path
    let stripped := (names.reverse.dropWhile (· = "")).reverse
    let last := stripped.getLast?.getD "."
    match m.walkPath (path.startsWith "/") stripped.dropLast with
    | .error cause => .error cause
    | .ok (place, .directory) =>
      if last = "." then
        .ok (place, some .directory)
      else if last = ".." then
        .ok (place.dropLast, some .directory)
      else if stripped.length < names.length then
        .error .isDirectory
      else if nameLimit < last.utf8ByteSize then
        .error .nameTooLong
      else
        .ok (place ++ [last], m.entry? (place ++ [last]))
    | .ok _ => .error .notDirectory

/-- The bytes that a program starts with; they are no text. -/
def programMark : List UInt8 := [0x7F, 0x45, 0x4C, 0x46, 0xFF]

def fetch (m : Memory) (path : String) : Except FileError (List UInt8) :=
  match m.resolve path with
  | .error cause => .error cause
  | .ok (_, .directory) => .error .isDirectory
  | .ok (_, .file content) => .ok content
  | .ok (_, .program _) => .ok programMark
  | .ok _ => .ok []

/-- Writes a text to a file. -/
def save (m : Memory) (path text : String) : Except FileError Memory :=
  match m.target path with
  | .error cause => .error cause
  | .ok (_, some .directory) => .error .isDirectory
  | .ok (_, some (.program _)) => .error .noPermission
  | .ok (_, some (.sink refusal)) =>
    match refusal with
    | some cause => .error cause
    | none => .ok m
  | .ok (_, some .printer) => .ok { m with printed := m.printed ++ text }
  | .ok (place, _) =>
    .ok { m with entries := (place, .file (Text.encode text.toList)) :: m.entries }

def execute (m : Memory) (path : String) (options : List String) (input : String) :
    Except FileError (List UInt8) :=
  match m.resolve path with
  | .error cause => .error cause
  | .ok (_, .program output) => .ok (Text.encode (output options input).toList)
  | .ok _ => .error .noPermission

/-- The content of the file that a path leads to, if there is one. -/
def content? (m : Memory) (path : String) : Option (List UInt8) :=
  match m.resolve path with
  | .ok (_, .file content) => some content
  | _ => none

/-- The machine as a host. -/
def host : Host (StateM Memory) where
  log level text := modify fun m ↦ { m with messages := m.messages ++ [(level, text)] }
  print text := modify fun m ↦ { m with printed := m.printed ++ text }
  fetch path := return (← get).fetch path
  save path text := do
    match (← get).save path text with
    | .ok m => set m; return .ok ()
    | .error cause => return .error cause
  locate path := return ((← get).resolve path).map fun (place, _) ↦ "/" ++ "/".intercalate place
  execute path options input := return (← get).execute path options input
  now := modifyGet fun m ↦ (m.time, { m with time := m.time + clockStep })

end Memory

end LiftedPlanning.CommandLine
