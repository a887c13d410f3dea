import LiftedPlanning.Proofs.Cnf.Dimacs

/-!
# Transcripts of solvers

A solver is told comments, clauses and variables to reserve, and is asked to solve what it knows,
sometimes under assumptions. Every solving call hands over an instance. Whatever the calls before it
were, the instance is read back as the clauses added so far with the assumptions of this call alone:
of earlier assumptions only the variables remain.
-/

namespace LiftedPlanning.Cnf

/-- A call to a solver; a plain solving call has no assumptions. -/
inductive Call
  | comment (text : String)
  | clause (c : Clause)
  | reserve (n : Nat)
  | solve (assumptions : List Literal)

namespace Call

def comments : Call → List (List Char)
  | .comment text => Text.lines text.toList
  | _ => []

/-- The clause that a call adds. -/
def clauses : Call → List Clause
  | .clause c => [c]
  | _ => []

/-- The numbers of the variables that a call mentions. -/
def numbers : Call → List Nat
  | .comment _ => []
  | .clause c => c.map Literal.number
  | .reserve n => [n]
  | .solve assumptions => assumptions.map Literal.number

end Call

namespace Store

variable {s : Store} {call : Call} {calls : List Call} {assumptions : List Literal}

/-- The instance that a call hands over, if it is a solving call, and the store after it. -/
def perform (s : Store) : Call → Option String × Store
  | .comment text => (none, s.addComment text)
  | .clause c => (none, s.addClause c)
  | .reserve n => (none, s.reserve n)
  | .solve assumptions =>
    let s := s.assume assumptions
    (some (s.dimacs assumptions), s)

/-- What the calls hand over, one after the other. -/
def transcript (s : Store) : List Call → List (Option String)
  | [] => []
  | call :: calls => (s.perform call).1 :: (s.perform call).2.transcript calls

def after (s : Store) (calls : List Call) : Store :=
  calls.foldl (fun s call ↦ (s.perform call).2) s

/-! ## One call -/

theorem foldl_max_le_iff {n m : Nat} {xs : List Nat} :
    xs.foldl max n ≤ m ↔ n ≤ m ∧ ∀ x ∈ xs, x ≤ m := by
  induction xs generalizing n with
  | nil => simp
  | cons x xs ih => rw [List.foldl_cons, ih, Nat.max_le, List.forall_mem_cons, and_assoc]

theorem max_maxNumber (n : Nat) (c : Clause) :
    max n c.maxNumber = (c.map Literal.number).foldl max n := by
  have hmax : ∀ m k : Nat, (c.map Literal.number).foldl max (max m k) =
      max m ((c.map Literal.number).foldl max k) := fun _ _ ↦ List.foldl_assoc
  rw [Clause.maxNumber, ← List.foldl_map (f := Literal.number) (g := max), ← hmax, Nat.max_zero]

/-- **One call** adds its comments and its clauses and counts its variables. -/
theorem perform_eq (s : Store) (call : Call) : (s.perform call).2 =
    ⟨s.comments ++ call.comments, s.clauses ++ call.clauses,
      call.numbers.foldl max s.varCount⟩ := by
  cases call with
  | comment text => simp [perform, addComment, Call.comments, Call.clauses, Call.numbers]
  | clause c =>
    simp [perform, addClause, Call.comments, Call.clauses, Call.numbers, max_maxNumber]
  | reserve n => simp [perform, reserve, Call.comments, Call.clauses, Call.numbers]
  | solve assumptions =>
    simp [perform, assume, reserve, Call.comments, Call.clauses, Call.numbers, max_maxNumber]

theorem IsReadable.perform (h : s.IsReadable) (call : Call) : (s.perform call).2.IsReadable := by
  obtain ⟨hcount, hnumbers⟩ :=
    foldl_max_le_iff.mp (Nat.le_refl (call.numbers.foldl max s.varCount))
  rw [perform_eq]
  constructor
  · refine List.forall_mem_append.mpr ⟨h.comments, fun line hline ↦ ?_⟩
    cases call with
    | comment text => exact Text.not_mem_of_mem_lines hline
    | _ => cases hline
  · refine List.forall_mem_append.mpr
      ⟨fun c hc l hl ↦ Nat.le_trans (h.clauses c hc l hl) hcount, fun c hc l hl ↦ ?_⟩
    cases call with
    | clause c' =>
      obtain rfl := List.mem_singleton.mp hc
      exact hnumbers _ (List.mem_map_of_mem hl)
    | _ => cases hc

/-- **A solving call** hands over an instance that is read back as what the store has and the
assumptions, whose variables are counted. -/
theorem IsReadable.read?_solve (h : s.IsReadable) (assumptions : List Literal) :
    Dimacs.read? ((s.assume assumptions).dimacs assumptions).toList = some
      { comments := s.comments.map commentText
        varCount := (assumptions.map Literal.number).foldl max s.varCount
        clauses := s.clauses ++ assumptions.map ([·]) } := by
  have hcount : (s.assume assumptions).varCount =
      (assumptions.map Literal.number).foldl max s.varCount := max_maxNumber _ _
  have hreadable : (s.assume assumptions).IsReadable := h.perform (.solve assumptions)
  rw [hreadable.read?_dimacs]
  · rw [← hcount]
    rfl
  · rw [hcount]
    exact fun l hl ↦ (foldl_max_le_iff.mp (Nat.le_refl _)).2 _ (List.mem_map_of_mem hl)

/-! ## Histories -/

theorem IsReadable.after (h : s.IsReadable) (calls : List Call) : (s.after calls).IsReadable := by
  induction calls generalizing s with
  | nil => exact h
  | cons call calls ih => exact ih (h.perform call)

theorem after_eq (s : Store) (calls : List Call) : s.after calls =
    ⟨s.comments ++ calls.flatMap Call.comments, s.clauses ++ calls.flatMap Call.clauses,
      (calls.flatMap Call.numbers).foldl max s.varCount⟩ := by
  induction calls generalizing s with
  | nil => simp [Store.after]
  | cons call calls ih =>
    rw [show s.after (call :: calls) = (s.perform call).2.after calls from rfl, ih, perform_eq]
    simp [List.foldl_append]

theorem transcript_append (s : Store) (calls calls' : List Call) :
    s.transcript (calls ++ calls') = s.transcript calls ++ (s.after calls).transcript calls' := by
  induction calls generalizing s with
  | nil => rfl
  | cons call calls ih => exact congrArg _ (ih _)

theorem length_transcript (s : Store) (calls : List Call) :
    (s.transcript calls).length = calls.length := by
  induction calls generalizing s with
  | nil => rfl
  | cons call calls ih => exact congrArg _ (ih _)

/-- **Histories.** Each solving call hands over an instance that is read back as what the solver
was told before, with the assumptions of this call as unit clauses. -/
theorem read?_transcript (before : List Call) (assumptions : List Literal) (rest : List Call) :
    ∃ text, (empty.transcript (before ++ Call.solve assumptions :: rest))[before.length]? =
        some (some text) ∧
      Dimacs.read? text.toList = some
        { comments := (before.flatMap Call.comments).map commentText
          varCount := ((before ++ [Call.solve assumptions]).flatMap Call.numbers).foldl max 0
          clauses := before.flatMap Call.clauses ++ assumptions.map ([·]) } := by
  have hreadable : (empty.after before).IsReadable :=
    .after ⟨List.forall_mem_nil _, List.forall_mem_nil _⟩ before
  -- what comes after the call does not matter, what came before is in the store
  refine ⟨((empty.after before).assume assumptions).dimacs assumptions, ?_, ?_⟩
  · rw [transcript_append, List.getElem?_append_right (Nat.le_of_eq (length_transcript _ _)),
      length_transcript, Nat.sub_self]
    rfl
  · rw [hreadable.read?_solve, after_eq]
    simp [empty, Call.numbers, List.foldl_append]

end Store

end LiftedPlanning.Cnf
