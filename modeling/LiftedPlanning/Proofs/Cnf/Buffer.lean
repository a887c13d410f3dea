import LiftedPlanning.Proofs.Cnf.Transcript

/-!
# Buffered instances

A solver that only passes instances on keeps the text of its instance in parts. Comments and clauses
are appended to their parts piece by piece, and the two counters of the header go along with them.
The parts are at any time those of the instance of a store: each call does to them what it does to
the store.
-/

namespace LiftedPlanning.Cnf

/-- The parts of an instance that are there between two calls. -/
structure Buffer where
  comments : String := ""
  clauses : String := ""
  varCount : Nat := 0
  clauseCount : Nat := 0

namespace Buffer

def empty : Buffer := {}

def addComment (b : Buffer) (comment : String) : Buffer :=
  { b with
    comments := (Text.lines comment.toList).foldl
      (fun text line ↦ text ++ ("c " ++ String.ofList line ++ "\n")) b.comments }

def addLiteral (b : Buffer) (l : Literal) : Buffer :=
  { b with varCount := max b.varCount l.number, clauses := b.clauses ++ (l.text ++ " ") }

def addClause (b : Buffer) (c : Clause) : Buffer :=
  let b := c.foldl addLiteral b
  { b with clauses := b.clauses ++ "0\n", clauseCount := b.clauseCount + 1 }

/-- Counts the variables up to number `n`. -/
def reserve (b : Buffer) (n : Nat) : Buffer :=
  { b with varCount := max b.varCount n }

/-- Counts the variables of assumptions. -/
def assume (b : Buffer) (assumptions : List Literal) : Buffer :=
  assumptions.foldl (fun b l ↦ b.reserve l.number) b

/-- The instance of a call: the parts around the header, and then the assumptions. -/
def dimacs (b : Buffer) (assumptions : List Literal) : String :=
  b.comments ++ Store.headerLine b.varCount (b.clauseCount + assumptions.length) ++ b.clauses ++
    assumptions.foldl (fun text l ↦ text ++ (l.text ++ " 0\n")) ""

/-- The instance that a call hands over, if it is a solving call, and the buffer after it. -/
def perform (b : Buffer) : Call → Option String × Buffer
  | .comment text => (none, b.addComment text)
  | .clause c => (none, b.addClause c)
  | .reserve n => (none, b.reserve n)
  | .solve assumptions =>
    let b := b.assume assumptions
    (some (b.dimacs assumptions), b)

/-- What the calls hand over, one after the other. -/
def transcript (b : Buffer) : List Call → List (Option String)
  | [] => []
  | call :: calls => (b.perform call).1 :: (b.perform call).2.transcript calls

end Buffer

/-! ## Stores as buffers -/

theorem foldl_append_eq {α : Type} (f : α → String) (text : String) (xs : List α) :
    xs.foldl (fun text x ↦ text ++ f x) text = text ++ String.join (xs.map f) := by
  induction xs generalizing text with
  | nil => simp
  | cons x xs ih => rw [List.foldl_cons, ih, List.map_cons, String.join_cons, String.append_assoc]

namespace Store

variable {s : Store}

/-- The parts of the instance of a store. -/
def buffer (s : Store) : Buffer where
  comments := String.join (s.comments.map commentLine)
  clauses := String.join (s.clauses.map clauseLine)
  varCount := s.varCount
  clauseCount := s.clauses.length

theorem buffer_addComment (s : Store) (comment : String) :
    (s.addComment comment).buffer = s.buffer.addComment comment := by
  have hline : (fun line ↦ "c " ++ String.ofList line ++ "\n") = commentLine := by
    funext line
    rw [commentLine, ← String.toList_inj]
    simp
  simp only [buffer, addComment, Buffer.addComment, foldl_append_eq, hline, List.map_append,
    String.join_append]

theorem foldl_addLiteral (b : Buffer) (c : Clause) : c.foldl Buffer.addLiteral b =
    { b with
      varCount := (c.map Literal.number).foldl max b.varCount
      clauses := b.clauses ++ String.join (c.map fun l ↦ l.text ++ " ") } := by
  induction c generalizing b with
  | nil => simp
  | cons l c ih =>
    rw [List.foldl_cons, ih]
    simp [Buffer.addLiteral, String.append_assoc]

theorem buffer_addClause (s : Store) (c : Clause) :
    (s.addClause c).buffer = s.buffer.addClause c := by
  rw [Buffer.addClause, foldl_addLiteral]
  simp [buffer, addClause, clauseLine, max_maxNumber, String.append_assoc]

theorem buffer_assume (s : Store) (assumptions : List Literal) :
    (s.assume assumptions).buffer = s.buffer.assume assumptions := by
  rw [assume, reserve, max_maxNumber]
  induction assumptions generalizing s with
  | nil => rfl
  | cons l assumptions ih => exact ih (s.reserve l.number)

theorem dimacs_buffer (s : Store) (assumptions : List Literal) :
    s.buffer.dimacs assumptions = s.dimacs assumptions := by
  have hunit : (fun l : Literal ↦ l.text ++ " 0\n") = fun l ↦ clauseLine [l] := by
    funext l
    rw [clauseLine, ← String.toList_inj]
    simp
  simp [Buffer.dimacs, dimacs, buffer, instanceClauses, foldl_append_eq, hunit,
    String.append_assoc, Function.comp_def]

/-- **One call** does to the parts what it does to the store, and hands over the same. -/
theorem perform_buffer (s : Store) (call : Call) :
    s.buffer.perform call = ((s.perform call).1, (s.perform call).2.buffer) := by
  cases call with
  | comment text => rw [Buffer.perform, perform, buffer_addComment]
  | clause c => rw [Buffer.perform, perform, buffer_addClause]
  | reserve n => rfl
  | solve assumptions =>
    rw [Buffer.perform, perform]
    dsimp only
    rw [← buffer_assume, dimacs_buffer]

/-- **Histories** of calls hand over the same instances. -/
theorem transcript_buffer (s : Store) (calls : List Call) :
    s.buffer.transcript calls = s.transcript calls := by
  induction calls generalizing s with
  | nil => rfl
  | cons call calls ih => rw [Buffer.transcript, transcript, perform_buffer, ih]

theorem transcript_empty (calls : List Call) :
    Buffer.empty.transcript calls = empty.transcript calls := by
  rw [← transcript_buffer]
  rfl

end Store

end LiftedPlanning.Cnf
