import LiftedPlanning.Proofs.Cnf.Buffer
import LiftedPlanning.Proofs.CommandLine.Memory
import LiftedPlanning.Proofs.Encoding.Horizons

/-!
# Written formulas

The formula of a number of steps is written as the instance of a single solving call: comments about
how it came about, the unrolled clauses, and the goal as assumptions. What is read back are these
clauses and the goal as unit clauses, over the variables of all the steps.
-/

namespace LiftedPlanning

open Cnf

/-! ## Unrolling into readable stores -/

namespace Cnf.Store

variable {s : Store}

theorem addClauses_eq_after (s : Store) (cs : List Clause) :
    s.addClauses cs = s.after (cs.map Call.clause) := by
  induction cs generalizing s with
  | nil => simp [addClauses, after]
  | cons c cs ih =>
    change _ = (s.addClause c).after (cs.map Call.clause)
    rw [← ih]
    simp [addClauses, addClause]

theorem IsReadable.addClauses (h : s.IsReadable) (cs : List Clause) :
    (s.addClauses cs).IsReadable := by
  rw [addClauses_eq_after]
  exact h.after _

end Cnf.Store

namespace Unrolling

variable {f : ReachabilityFormula} {u : Unrolling} {s : Store}

theorem isReadable_start (hs : s.IsReadable) : (start f s).store.IsReadable :=
  ((hs.perform (.reserve f.stepSize)).addClauses f.initial).addClauses (f.universalAt 0)

theorem isReadable_extend (hu : u.store.IsReadable) : (extend f u).store.IsReadable :=
  ((hu.perform (.reserve ((u.horizon + 2) * f.stepSize))).addClauses
    (f.transitionAt u.horizon)).addClauses (f.universalAt (u.horizon + 1))

/-- Comments that are there from the start make no difference to an unrolling. -/
theorem iterate_extend_start (f : ReachabilityFormula) (comments : List (List Char)) (h : Nat) :
    (extend f)^[h] (start f { comments }) =
      { upTo f h with store := { (upTo f h).store with comments } } := by
  induction h with
  | zero => rfl
  | succ h ih =>
    rw [Function.iterate_succ_apply', ih, upTo_succ]
    rfl

theorem isReadable_upTo (f : ReachabilityFormula) {comments : List (List Char)}
    (hc : ∀ line ∈ comments, '\n' ∉ line) (h : Nat) :
    Store.IsReadable { (upTo f h).store with comments } := by
  -- the invariant is that of the unrolling with the comments there from the start
  have hreadable : ((extend f)^[h] (start f { comments })).store.IsReadable := by
    induction h with
    | zero => exact isReadable_start ⟨hc, List.forall_mem_nil _⟩
    | succ h ih =>
      rw [Function.iterate_succ_apply']
      exact isReadable_extend ih
  rwa [iterate_extend_start] at hreadable

end Unrolling

namespace CommandLine

variable {strategy : Strategy} {e : Encoding} {steps : Nat}

/-- The comments that a written formula starts with. -/
def writtenComments (strategy : Strategy) (e : Encoding) (steps : Nat) : List (List Char) :=
  [s!"strategy {strategy.text}", s!"steps {steps}", e.statistics.text].flatMap
    (Text.lines ·.toList)

theorem writtenFormula_eq (strategy : Strategy) (e : Encoding) (steps : Nat) :
    (writtenFormula strategy e steps).2 =
      (Store.assume { (Unrolling.upTo e.formula steps).store with
        comments := writtenComments strategy e steps } (e.formula.goalAt steps)).dimacs
          (e.formula.goalAt steps) := by
  have hcomments : ((Store.empty.addComment s!"strategy {strategy.text}").addComment
      s!"steps {steps}").addComment e.statistics.text =
        { comments := writtenComments strategy e steps } := by
    simp only [Store.addComment, writtenComments, List.flatMap_cons, List.flatMap_nil,
      List.append_nil, List.append_assoc]
    rfl
  rw [writtenFormula, hcomments]
  simp only [List.foldl_const, List.length_range, Unrolling.iterate_extend_start, Unrolling.goal,
    Unrolling.horizon_upTo]

theorem read?_writtenFormula (strategy : Strategy) (e : Encoding) (steps : Nat) :
    Dimacs.read? (writtenFormula strategy e steps).2.toList = some
      { comments := (writtenComments strategy e steps).map Store.commentText
        varCount := ((e.formula.goalAt steps).map Literal.number).foldl max
          (Unrolling.upTo e.formula steps).store.varCount
        clauses := e.formula.unrolled steps ++ (e.formula.goalAt steps).map ([·]) } := by
  have hcomments : ∀ line ∈ writtenComments strategy e steps, '\n' ∉ line := by
    intro line hline
    obtain ⟨_, _, hline⟩ := List.mem_flatMap.mp hline
    exact Text.not_mem_of_mem_lines hline
  rw [writtenFormula_eq, (Unrolling.isReadable_upTo e.formula hcomments steps).read?_solve,
    Unrolling.clauses_upTo]

theorem foldl_max_goalAt {p : Problem} {g : Grounding} (hg : g.IsBuilt)
    (he : Encoding.ofProblem p g strategy = .ok e) :
    ((e.formula.goalAt steps).map Literal.number).foldl max
      (Unrolling.upTo e.formula steps).store.varCount = (steps + 1) * e.formula.stepSize := by
  obtain ⟨os, he⟩ := Encoding.exists_isEncoding he
  rw [Unrolling.varCount_upTo (he.blockwise hg.distinctAtoms)]
  refine Nat.le_antisymm (Store.foldl_max_le_iff.mpr ⟨Nat.le_refl _, ?_⟩)
    (Store.foldl_max_le_iff.mp (Nat.le_refl _)).1
  simp only [ReachabilityFormula.goalAt, List.forall_mem_map]
  intro literal hl
  have hvar := he.var_goal_lt literal hl
  rw [Nat.succ_mul]
  change literal.var + steps * e.formula.stepSize + 1 ≤ _
  omega

/-- **Instances.** After any history of calls, a solving call hands over an instance that is read
back as the comments and clauses so far, in order, with the assumptions of this call as unit
clauses, over the variables mentioned so far. So a command line for encoding that ends with success
delivers a text that is read back as the unrolled clauses of the problem in the input file, with the
goal as unit clauses, over the variables of the steps. -/
theorem read?_transcript_and_run_encode :
    (∀ (before : List Call) (assumptions : List Literal) (rest : List Call),
      ∃ text, (Buffer.empty.transcript (before ++ Call.solve assumptions :: rest))[before.length]? =
          some (some text) ∧
        Dimacs.read? text.toList = some
          { comments := (before.flatMap Call.comments).map Store.commentText
            varCount := ((before ++ [Call.solve assumptions]).flatMap Call.numbers).foldl max 0
            clauses := before.flatMap Call.clauses ++ assumptions.map ([·]) }) ∧
    ∀ (m m' : Memory) (arguments : List String) (found : Matches),
      parseCommand arguments = .ok (.encode, found) →
      (run Memory.host arguments).run m = (.success, m') →
      ∃ steps strategy e text, readSteps found = .ok steps ∧ m.Encodes found strategy e ∧
        m.Delivers (found.value? .output) text m' ∧
        Dimacs.read? text.toList = some
          { comments := (writtenComments strategy e steps).map Store.commentText
            varCount := (steps + 1) * e.formula.stepSize
            clauses := e.formula.unrolled steps ++ (e.formula.goalAt steps).map ([·]) } := by
  refine ⟨fun before assumptions rest ↦ ?_, fun m m' arguments found hparse hrun ↦ ?_⟩
  · rw [Store.transcript_empty]
    exact Store.read?_transcript before assumptions rest
  · obtain ⟨steps, strategy, e, hsteps, hencodes, hdelivers⟩ :=
      delivers_of_run_eq_success hparse hrun
    obtain ⟨content, p, relaxed, -, -, hrelaxed, -, he⟩ := id hencodes
    have hbuilt := RelaxedGrounding.isBuilt_of_ofProblem hrelaxed
    refine ⟨steps, strategy, e, _, hsteps, hencodes, hdelivers, ?_⟩
    rw [read?_writtenFormula, foldl_max_goalAt hbuilt he]

/-- A machine with a file about a lamp that can be switched off. -/
def lampMachine : Memory where
  home := []
  entries := [(["lamp"], .file <| Text.encode
    ("type(lamp).\nconst(left, lamp).\npred(lit, lamp).\nop(off, ?x:lamp).\n" ++
    "pre(off, lit(?x)).\neff(off, -lit(?x)).\ninit(lit(left)).\ngoal(-lit(left)).\n").toList)]

/-- Encodes the problem of the lamp for one step. -/
def lampArguments : List String :=
  ["encode-to-sat", "-f", "lamp", "--steps", "1"]

/-- What these arguments ask for. -/
def lampMatches : Matches where
  given := [.input, .steps]
  values := [(.input, "lamp"), (.steps, "1"), (.strategy, "parallel"), (.eligibility, "lifted"),
    (.logging, "info")]

/-- The formula about the lamp is printed. -/
theorem run_encode_lamp :
    parseCommand lampArguments = .ok (.encode, lampMatches) ∧
      ((run Memory.host lampArguments).run lampMachine).1 = .success ∧
      ∃ strategy e text, lampMachine.Encodes lampMatches strategy e ∧
        lampMachine.Delivers none text ((run Memory.host lampArguments).run lampMachine).2 ∧
        Dimacs.read? text.toList = some
          { comments := (writtenComments strategy e 1).map Store.commentText
            varCount := 2 * e.formula.stepSize
            clauses := e.formula.unrolled 1 ++ (e.formula.goalAt 1).map ([·]) } := by
  have hparse : parseCommand lampArguments = .ok (.encode, lampMatches) := rfl
  have hrun : ((run Memory.host lampArguments).run lampMachine).1 = .success := by decide +kernel
  obtain ⟨steps, strategy, e, text, hsteps, hencodes, hdelivers, hread⟩ :=
    read?_transcript_and_run_encode.2 _ _ _ _ hparse (Prod.fst_eq_iff.mp hrun)
  obtain rfl : 1 = steps := by
    have hone : readSteps lampMatches = .ok 1 := by decide +kernel
    exact Except.ok.inj (hone.symm.trans hsteps)
  exact ⟨hparse, hrun, strategy, e, text, hencodes, hdelivers, hread⟩

end CommandLine

end LiftedPlanning
