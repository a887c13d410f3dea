import LiftedPlanning.Proofs.Encoding.Range
import LiftedPlanning.Proofs.Encoding.Support

/-!
# Clauses and their counts

The clauses of an encoding can be put out one by one. Each generator appends to one of the two lists
of clauses and adds one to a count of its own; the support index is filled on the way, and the last
two generators read it. The counts are kept apart from the lists. That they agree is an invariant of
the generators: none of them appends without counting, or counts without appending.

What is put out are the clauses of the encoding, whose statistics are taken from its parts. So these
statistics are the counts. For the interference clauses only the atoms are visited that an effect
supports, and those that nothing needs are skipped; the others have no such clauses.
-/

namespace LiftedPlanning.Encoding

open Cnf (Clause Literal)

/-! ## Generators -/

/-- What has been put out so far, with the counts of each kind of clause. -/
structure Ledger where
  universal : List Clause := []
  transition : List Clause := []
  support : Support Supporter := .empty
  parameters : Nat := 0
  preconditions : Nat := 0
  forbidden : Nat := 0
  interference : Nat := 0
  effects : Nat := 0
  frame : Nat := 0

namespace Ledger

/-- The selection clauses come first. They are counted when all of them are out. -/
def select (l : Layout) (semantics : StepSemantics) : Ledger :=
  let universal := selectionClauses l semantics
  { universal, parameters := universal.length }

/-- Puts out the clause of an occurrence and records the occurrence. If its atom is not in the
universe, it is forbidden instead and not recorded. -/
def enter (l : Layout) (s : Ledger) (o : Occurrence) : Ledger :=
  match o.atom with
  | none => { s with universal := s.universal ++ [o.forbids], forbidden := s.forbidden + 1 }
  | some a =>
    let entry : SupportEntry Supporter := ⟨a, !o.rule.condition.negated, o.rule.role, o.supporter⟩
    match o.rule.role with
    | .precondition =>
      { s with
        universal := s.universal ++ [o.implies (o.literal l a)]
        preconditions := s.preconditions + 1
        support := (s.support.record entry).2 }
    | .effect =>
      { s with
        transition := s.transition ++ [o.implies ((o.literal l a).shift l.size)]
        effects := s.effects + 1
        support := (s.support.record entry).2 }

def interfere (s : Ledger) (clause : Clause) : Ledger :=
  { s with universal := s.universal ++ [clause], interference := s.interference + 1 }

def keep (s : Ledger) (clause : Clause) : Ledger :=
  { s with transition := s.transition ++ [clause], frame := s.frame + 1 }

/-- Puts out the interference clauses of the effects that give an atom a sign. -/
def interfereAt (support : Support Supporter) (positive : Bool) (s : Ledger) (a : AtomId) :
    Ledger :=
  let needs := support.supporters a (!positive) .precondition
  if needs.isEmpty then
    s
  else
    (support.supporters a positive .effect).foldl (fun s effect ↦
      (needs.filter fun need ↦ need.binding.operator ≠ effect.binding.operator).foldl
        (fun s need ↦ s.interfere (exclude effect need)) s) s

/-- Puts out the interference clauses of the supported atoms. -/
def interfereAll (s : Ledger) : Ledger :=
  [true, false].foldl (fun t positive ↦
    (s.support.supportedAtoms positive .effect).foldl (interfereAt s.support positive) t) s

def keepAll (l : Layout) (s : Ledger) : Ledger :=
  l.atoms.foldl (fun t a ↦
    [true, false].foldl (fun t becomesTrue ↦
      (changeClauses l s.support a becomesTrue).foldl keep t) t) s

/-- Puts out all the clauses about steps. -/
def ofOccurrences (l : Layout) (semantics : StepSemantics) (os : List Occurrence) : Ledger :=
  let s := os.foldl (enter l) (select l semantics)
  let s := match semantics with
    | .sequential => s
    | .parallel => s.interfereAll
  s.keepAll l

/-- Puts out the clauses of a problem. -/
def ofProblem (p : Problem) (g : Grounding) (strategy : Strategy) :
    Except EncodingError Ledger := do
  let l := layoutOf p g strategy.eligibility
  let _ ← p.goal.mapM (goalLiteral p g l)
  let rules ← rules p l.eligibility
  let occurrences ← rules.mapM (Rule.occurrences p g l)
  return ofOccurrences l strategy.semantics occurrences.flatten

/-! ## Counting along

The lists are as long as the counts say, after every step of every generator. -/

variable {l : Layout} {s : Ledger} {n : Nat}

/-- The counts of the kinds of clauses add up to the lengths of the lists, and there was a clause
for each of `n` occurrences. -/
structure Balanced (s : Ledger) (n : Nat) : Prop where
  universal : s.universal.length =
    s.parameters + s.preconditions + s.forbidden + s.interference
  transition : s.transition.length = s.effects + s.frame
  occurrences : s.preconditions + s.effects + s.forbidden = n

theorem balanced_select (semantics : StepSemantics) : (select l semantics).Balanced 0 :=
  ⟨rfl, rfl, rfl⟩

theorem Balanced.enter (h : s.Balanced n) (o : Occurrence) : (s.enter l o).Balanced (n + 1) := by
  obtain ⟨huniversal, htransition, hoccurrences⟩ := h
  rw [Ledger.enter]
  split
  · constructor <;> simp only [List.length_append, List.length_singleton] <;> omega
  · split <;> constructor <;> simp only [List.length_append, List.length_singleton] <;> omega

theorem Balanced.interfere (h : s.Balanced n) (clause : Clause) :
    (s.interfere clause).Balanced n := by
  obtain ⟨huniversal, htransition, hoccurrences⟩ := h
  rw [Ledger.interfere]
  constructor <;> simp only [List.length_append, List.length_singleton] <;> omega

theorem Balanced.keep (h : s.Balanced n) (clause : Clause) : (s.keep clause).Balanced n := by
  obtain ⟨huniversal, htransition, hoccurrences⟩ := h
  rw [Ledger.keep]
  constructor <;> simp only [List.length_append, List.length_singleton] <;> omega

theorem Balanced.foldl_enter (h : s.Balanced n) (os : List Occurrence) :
    (os.foldl (Ledger.enter l) s).Balanced (n + os.length) := by
  induction os generalizing s n with
  | nil => exact h
  | cons o os ih =>
    rw [List.foldl_cons, List.length_cons, Nat.add_comm os.length, ← Nat.add_assoc]
    exact ih (h.enter o)

theorem Balanced.foldl {α : Type} {step : Ledger → α → Ledger}
    (hstep : ∀ s a, s.Balanced n → (step s a).Balanced n) (h : s.Balanced n) (xs : List α) :
    (xs.foldl step s).Balanced n :=
  List.foldlRecOn xs step h fun s hs a _ ↦ hstep s a hs

theorem Balanced.interfereAt (h : s.Balanced n) (support : Support Supporter) (positive : Bool)
    (a : AtomId) : (s.interfereAt support positive a).Balanced n := by
  rw [Ledger.interfereAt]
  split
  · exact h
  · exact h.foldl (fun _ _ hs ↦ hs.foldl (fun _ _ hs ↦ hs.interfere _) _) _

theorem Balanced.interfereAll (h : s.Balanced n) : s.interfereAll.Balanced n :=
  h.foldl (fun _ positive hs ↦ hs.foldl (fun _ a hs ↦ hs.interfereAt s.support positive a) _) _

theorem Balanced.keepAll (h : s.Balanced n) : (s.keepAll l).Balanced n :=
  h.foldl (fun _ _ hs ↦ hs.foldl (fun _ _ hs ↦ hs.foldl (fun _ _ hs ↦ hs.keep _) _) _) _

/-- **The counts are right.** Whatever occurrences there are, the lists of clauses are as long as
the counts say in the end. -/
theorem balanced_ofOccurrences (semantics : StepSemantics) (os : List Occurrence) :
    (ofOccurrences l semantics os).Balanced os.length := by
  have hentered : (os.foldl (Ledger.enter l) (select l semantics)).Balanced os.length :=
    Nat.zero_add os.length ▸ (balanced_select semantics).foldl_enter os
  cases semantics with
  | sequential => exact hentered.keepAll
  | parallel => exact hentered.interfereAll.keepAll

/-! ## What is put out -/

theorem enter_eq (o : Occurrence) :
    s.enter l o = { s with
      universal := s.universal ++ (o.universalClause? l).toList
      transition := s.transition ++ (o.effectClause? l).toList
      support := o.entry?.toList.foldl (fun s e ↦ (s.record e).2) s.support
      preconditions := s.preconditions + (o.preconditionClause? l).toList.length
      forbidden := s.forbidden + o.forbiddenClause?.toList.length
      effects := s.effects + (o.effectClause? l).toList.length } := by
  obtain ⟨rule, supporter, atom⟩ := o
  cases atom with
  | none => simp [enter, Occurrence.universalClause?, Occurrence.preconditionClause?,
      Occurrence.forbiddenClause?, Occurrence.effectClause?, Occurrence.entry?]
  | some a =>
    cases hrole : rule.role <;>
      simp [enter, hrole, Occurrence.universalClause?, Occurrence.preconditionClause?,
        Occurrence.forbiddenClause?, Occurrence.effectClause?, Occurrence.entry?]

theorem foldl_enter (os : List Occurrence) :
    os.foldl (enter l) s = { s with
      universal := s.universal ++ os.filterMap (·.universalClause? l)
      transition := s.transition ++ os.filterMap (·.effectClause? l)
      support := (os.filterMap Occurrence.entry?).foldl (fun s e ↦ (s.record e).2) s.support
      preconditions := s.preconditions + (os.filterMap (·.preconditionClause? l)).length
      forbidden := s.forbidden + (os.filterMap (·.forbiddenClause?)).length
      effects := s.effects + (os.filterMap (·.effectClause? l)).length } := by
  induction os generalizing s with
  | nil => simp
  | cons o os ih =>
    rw [List.foldl_cons, ih, enter_eq]
    simp only [List.filterMap_eq_flatMap_toList, List.flatMap_cons, List.append_assoc,
      List.foldl_append, List.length_append, Nat.add_assoc]

theorem foldl_interfere (clauses : List Clause) :
    clauses.foldl interfere s = { s with
      universal := s.universal ++ clauses
      interference := s.interference + clauses.length } := by
  induction clauses generalizing s with
  | nil => simp
  | cons clause clauses ih =>
    rw [List.foldl_cons, ih, interfere]
    simp only [List.append_assoc, List.singleton_append, List.length_cons, Nat.add_assoc,
      Nat.add_comm 1]

theorem foldl_keep (clauses : List Clause) :
    clauses.foldl keep s = { s with
      transition := s.transition ++ clauses
      frame := s.frame + clauses.length } := by
  induction clauses generalizing s with
  | nil => simp
  | cons clause clauses ih =>
    rw [List.foldl_cons, ih, keep]
    simp only [List.append_assoc, List.singleton_append, List.length_cons, Nat.add_assoc,
      Nat.add_comm 1]

theorem keepAll_eq :
    s.keepAll l = { s with
      transition := s.transition ++ frameClauses l s.support
      frame := s.frame + (frameClauses l s.support).length } := by
  rw [← foldl_keep, frameClauses]
  simp only [keepAll, List.foldl_flatMap]

end Ledger

theorem flatMap_filter_of_eq_nil {α β : Type} {xs : List α} {f : α → List β} {q : α → Bool}
    (h : ∀ x, q x = false → f x = []) : (xs.filter q).flatMap f = xs.flatMap f := by
  induction xs with
  | nil => rfl
  | cons x xs ih =>
    rw [List.filter_cons, List.flatMap_cons]
    split
    · rw [List.flatMap_cons, ih]
    · rename_i hx
      rw [ih, h x (Bool.eq_false_iff.mpr hx), List.nil_append]

/-- Only supported atoms have interference clauses. -/
theorem interferenceClauses_eq {s : Support Supporter}
    (h : ∀ e ∈ s.entries, e.atom.index < l.atomCount) :
    interferenceClauses l s = [true, false].flatMap fun positive ↦
      (s.supportedAtoms positive .effect).flatMap fun a ↦ atomInterference s a positive := by
  rw [interferenceClauses]
  refine List.flatMap_congr fun positive _ ↦ ?_
  rw [Support.supportedAtoms_eq h]
  refine (flatMap_filter_of_eq_nil fun a ha ↦ ?_).symm
  rw [Bool.not_eq_false', List.isEmpty_iff] at ha
  rw [atomInterference, ha, List.flatMap_nil]

namespace Ledger

variable {s : Ledger}

theorem interfereAt_eq (support : Support Supporter) (positive : Bool) (s : Ledger) (a : AtomId) :
    s.interfereAt support positive a = (atomInterference support a positive).foldl interfere s := by
  rw [interfereAt, atomInterference]
  split
  · rename_i hnone
    have hnil : atomInterference support a positive = [] := by
      refine List.flatMap_eq_nil_iff.mpr fun effect _ ↦ ?_
      rw [List.isEmpty_iff.mp hnone]
      rfl
    exact congrArg (List.foldl interfere s) hnil.symm
  · simp only [List.foldl_flatMap, List.foldl_map]

theorem interfereAll_eq (h : ∀ e ∈ s.support.entries, e.atom.index < l.atomCount) :
    s.interfereAll = { s with
      universal := s.universal ++ interferenceClauses l s.support
      interference := s.interference + (interferenceClauses l s.support).length } := by
  rw [← foldl_interfere, interferenceClauses_eq h]
  simp only [interfereAll, List.foldl_flatMap, ← interfereAt_eq]

end Ledger

/-! ## The whole encoding -/

/-- The clauses and the support index of an encoding, with its counts. -/
def ledger (e : Encoding) : Ledger where
  universal := e.formula.universal
  transition := e.formula.transition
  support := e.support
  parameters := e.statistics.parameters
  preconditions := e.statistics.preconditions
  forbidden := e.statistics.forbidden
  interference := e.statistics.interference
  effects := e.statistics.effects
  frame := e.statistics.frame

theorem index_lt_of_mem_entries {os : List Occurrence} (h : Bounded l os)
    {entry : SupportEntry Supporter} (hentry : entry ∈ (supportOf os).entries) :
    entry.atom.index < l.atomCount := by
  obtain ⟨o, ho, hentry⟩ := mem_entries_supportOf_iff.mp hentry
  obtain ⟨a, ha, rfl⟩ := Option.map_eq_some_iff.mp hentry
  exact (h o ho).2 a ha

theorem Ledger.ofOccurrences_eq {p : Problem} {g : Grounding} {strategy : Strategy}
    {goal : List Literal} {os : List Occurrence} (h : Bounded l os) :
    ofOccurrences l strategy.semantics os = (assemble p g strategy l goal os).ledger := by
  obtain ⟨semantics, mode⟩ := strategy
  cases semantics with
  | sequential =>
    simp only [ofOccurrences, foldl_enter, keepAll_eq]
    simp [select, ledger, assemble, supportOf]
  | parallel =>
    simp only [ofOccurrences, foldl_enter, keepAll_eq]
    rw [interfereAll_eq fun _ ↦ index_lt_of_mem_entries h]
    simp [select, ledger, assemble, supportOf]

/-- **The counts of the generators are the statistics.** The clauses that are put out one by one,
the support index that is filled on the way and the counts that are kept are those of the encoding.
-/
theorem Ledger.ofProblem_eq_ok {p : Problem} {g : Grounding} {strategy : Strategy} {e : Encoding}
    (he : Encoding.ofProblem p g strategy = .ok e) :
    Ledger.ofProblem p g strategy = .ok e.ledger := by
  obtain ⟨goal, rs, oss, hgoal, hrs, hoss, rfl⟩ := ofProblem_eq_ok_iff.mp he
  refine Fallible.bind_eq_ok_iff.mpr ⟨goal, hgoal, Fallible.bind_eq_ok_iff.mpr
    ⟨rs, hrs, Fallible.bind_eq_ok_iff.mpr ⟨oss, hoss, congrArg Except.ok ?_⟩⟩⟩
  exact ofOccurrences_eq (isEncoding_assemble hgoal hrs hoss).covers.bounded

end Encoding

end LiftedPlanning
