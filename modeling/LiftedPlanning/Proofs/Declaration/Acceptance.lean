import LiftedPlanning.Proofs.Declaration.Reader
import LiftedPlanning.Proofs.Encoding.Blocks
import LiftedPlanning.Proofs.Grounding.Derivation
import LiftedPlanning.Proofs.Handles

/-!
# What is read goes through

The reader, the validation, the grounder and the encoding check conditions each in their own way,
the reader while declarations are still arriving. They agree: whatever is read is valid, it can be
grounded unless a declaration was a disjunction of several literals, and what was grounded can be
encoded. None of these stages looks up a handle that leads nowhere.
-/

namespace LiftedPlanning.Declaration

open Text

variable {p : Problem}

/-! ## Grounding of what was read -/

theorem Sound.simple (hp : Sound p) (h : ¬p.HasChoice) {op : OperatorId} {schema : Operator}
    (hop : p.operator? op = some schema) : schema.Simple := by
  refine fun role ↦ ⟨Formula.residual_eq_none_iff.mpr ?_, fun c hc ↦ ?_⟩
  · by_contra hchoices
    exact h ⟨op, schema, role, hop, hchoices⟩
  · exact hp.scopes op schema hop role c (Formula.mem_conditions_of_mem_flat hc)

/-- **The grounder fails at choices only.** -/
theorem Sound.exists_error_iff (hp : Sound p) :
    (∃ e, RelaxedGrounding.ofProblem p = .error e) ↔ p.HasChoice := by
  constructor
  · rintro ⟨e, he⟩
    by_contra h
    obtain ⟨r, hr, _⟩ := RelaxedGrounding.exists_ofProblem (fun _ _ ↦ hp.simple h)
      fun c hc ↦ (hp.wellFormed.goal c hc).2
    rw [hr] at he
    cases he
  · rintro ⟨op, schema, role, hop, hchoices⟩
    cases h : RelaxedGrounding.ofProblem p with
    | error e => exact ⟨e, rfl⟩
    | ok r =>
      have hsimple := (RelaxedGrounding.exists_of_ofProblem h).1 op schema hop role
      exact absurd (Formula.residual_eq_none_iff.mp hsimple.1) hchoices

/-- Eligible arguments ground all the conditions of an operator. -/
def Groundable (p : Problem) : Prop :=
  ∀ op schema, p.operator? op = some schema →
    ∀ args ∈ combinations ((Eligibility.byType p).setsOf op),
      ∀ role, ∀ c ∈ (schema.formula role).conditions,
        (c.groundWith (schema.argument? args)).isSome = true

theorem Sound.groundable (hp : Sound p) : Groundable p := by
  intro op schema hop args hargs role c hc
  have hlen := (Eligibility.mem_combinations_setsOf_iff.mp hargs).1
  rw [Eligibility.arity_byType hop] at hlen
  exact Option.isSome_iff_exists.mpr
    ((hp.scopes op schema hop role c hc).exists_groundWith hlen)

/-! ## The stages after the reader -/

/-- **What the reader accepts goes through.** While a text is read, the problem is closed after each
line, and reading does not fail at an unknown handle. A problem that was read is valid. It cannot be
grounded exactly if some precondition or effect was declared as a disjunction of several literals.
Once grounded it is encoded under every strategy. The look-ups of all these stages are answered. -/
theorem accepted_of_read (bytes : List UInt8) :
    ((∀ lines q, lines <+: storedLines bytes → (readLines .empty 1 lines).problem = .ok q →
        q.Closed) ∧
      ∀ e, (read bytes).problem = .error e → e.cause.isUnknownHandle = false) ∧
    ∀ p, (read bytes).problem = .ok p →
      (p.validate = .ok () ∧ p.Closed) ∧
      ((∃ e, RelaxedGrounding.ofProblem p = .error e) ↔
        ∃ line ∈ storedLines bytes, lineIsChoice line = true) ∧
      ((Eligibility.byType p).Closed p ∧ Groundable p) ∧
      ∀ r, RelaxedGrounding.ofProblem p = .ok r → r.grounding.Closed p ∧
        ∀ strategy, ∃ e, Encoding.ofProblem p r.grounding strategy = .ok e ∧
          e.Closed p r.grounding := by
  have hlines : ∀ lines, Fallible.Meets (readLines .empty 1 lines).problem
      (fun q ↦ Reads .empty q (lines.any lineIsChoice)) (·.cause.isUnknownHandle = false) :=
    readLines_meets sound_empty 1
  refine ⟨⟨fun lines q _ hq ↦ ?_, fun e he ↦ (hlines _).of_error he⟩, fun p hp ↦ ?_⟩
  · exact ((hlines lines).of_ok hq).sound.wellFormed.closed
  have hreads := (hlines _).of_ok hp
  have hsound := hreads.sound
  refine ⟨⟨hsound.wellFormed.validate_eq_ok_iff.mpr hsound.scopes, hsound.wellFormed.closed⟩, ?_,
    ⟨Encoding.closed_eligibility p .empty .lifted, hsound.groundable⟩, fun r hr ↦ ?_⟩
  · rw [hsound.exists_error_iff, hreads.hasChoice, or_iff_right Problem.not_hasChoice_empty,
      List.any_eq_true]
  · obtain ⟨reached, hg⟩ := RelaxedGrounding.exists_isRelaxed hr
    refine ⟨hg.closedGrounding, fun strategy ↦ ?_⟩
    obtain ⟨e, he⟩ := Encoding.exists_ofProblem hg.goal hg.simple strategy
    obtain ⟨os, hos⟩ := Encoding.exists_isEncoding he
    exact ⟨e, he, Encoding.closed_of_layout hos.layout⟩

/-- A ferry between two ports, as lines of a text. -/
def ferryLines : List String :=
  ["type(loc).", "type(port, loc).", "const(a, b, port).", "pred(at, loc).",
    "op(sail, ?x:loc, ?y:port).", "pre(sail, at(?x)).", "eff(sail, at(?y)).", "eff(sail, -at(?x)).",
    "init(at(a)).", "goal(at(b))."]

/-- Lines of ASCII characters as they are stored. -/
def stored (lines : List String) : List UInt8 :=
  lines.flatMap fun line ↦ line.toList.map (fun c ↦ UInt8.ofNat c.toNat) ++ [10]

def ferry : Problem :=
  (read (stored ferryLines)).problem.toOption.get (by decide +kernel)

/-- The ferry that may as well be at the other port already. -/
def strayFerry : Problem :=
  (read (stored (ferryLines ++ ["pre(sail, at(?x) | at(?y))."]))).problem.toOption.get
    (by decide +kernel)

/-- The ferry is valid and is encoded; with a choice in its precondition it is valid too, but it
cannot be grounded. -/
theorem accepted_ferry :
    (ferry.validate = .ok () ∧ ∃ r, RelaxedGrounding.ofProblem ferry = .ok r ∧
      ∀ strategy, ∃ e, Encoding.ofProblem ferry r.grounding strategy = .ok e) ∧
    strayFerry.validate = .ok () ∧ ∃ e, RelaxedGrounding.ofProblem strayFerry = .error e := by
  obtain ⟨⟨hvalid, _⟩, hfails, _, hencoded⟩ :=
    (accepted_of_read (stored ferryLines)).2 ferry (Fallible.eq_ok_get _)
  obtain ⟨⟨hvalid', _⟩, hfails', _⟩ :=
    (accepted_of_read (stored (ferryLines ++ ["pre(sail, at(?x) | at(?y))."]))).2 strayFerry
      (Fallible.eq_ok_get _)
  refine ⟨⟨hvalid, ?_⟩, hvalid', hfails'.mpr ?_⟩
  · cases hr : RelaxedGrounding.ofProblem ferry with
    | error e =>
      have hchoice : ¬∃ line ∈ storedLines (stored ferryLines), lineIsChoice line = true := by
        decide +kernel
      exact absurd (hfails.mp ⟨e, hr⟩) hchoice
    | ok r =>
      refine ⟨r, rfl, fun strategy ↦ ?_⟩
      obtain ⟨e, he, _⟩ := (hencoded r hr).2 strategy
      exact ⟨e, he⟩
  · decide +kernel

end LiftedPlanning.Declaration
