import LiftedPlanning.Proofs.Grounding.Derivation
import LiftedPlanning.Proofs.Grounding.InPlace

/-!
# Saturation by flags

Candidates that have fired need not be dropped. They can be flagged instead, and every round then
scans all candidates, passes over those with a flag, and flags those that fire; the last round is
the one that sets no flag. The atoms are kept in a hash set, conditions are grounded one at a time,
which may fail, and the actions are read off the flags.

The candidates without flags are those that the rounds have left over, so both ways reach the same
atoms in as many rounds. What has a flag has its positive preconditions among the atoms, and after
the last round nothing else has.
-/

namespace LiftedPlanning

variable {p : Problem}

namespace Candidate

/-- Looks up the positive preconditions in turn, and stops at one that is not reached. -/
def isApplicable? (c : Candidate) (reached : Std.HashSet GroundAtom) : Option Bool :=
  (c.operator.preconditions.filter fun b ↦ !b.negated).allM fun b ↦
    (c.operator.atom? c.args b).map reached.contains

/-- The positive effects, if all of them can be grounded. -/
def adds? (c : Candidate) : Option (List GroundAtom) :=
  (c.operator.effects.filter fun b ↦ !b.negated).mapM (c.operator.atom? c.args)

theorem isApplicable?_eq {c : Candidate} (h : c.operator.Grounds c.args)
    {reached : Std.HashSet GroundAtom} {table : AtomTable}
    (hreached : ∀ a, a ∈ reached ↔ a ∈ table.toList) :
    c.isApplicable? reached = some (c.isReachable table) := by
  have hlook : reached.contains = fun a ↦ (table.place? a.key).isSome := by
    funext a
    rw [Bool.eq_iff_iff, AtomTable.isSome_place?_iff, ← hreached, Std.HashSet.mem_iff_contains]
  rw [isApplicable?, Fallible.allM_eq_some_all fun b hb ↦
    h b (List.mem_append_left _ (List.mem_filter.mp hb).1), hlook]
  rfl

theorem isReachable_mono {c : Candidate} {t u : AtomTable} (h : ∀ a ∈ t.toList, a ∈ u.toList)
    (hc : c.isReachable t = true) : c.isReachable u = true :=
  isReachable_iff.mpr fun a ha ↦ h a (isReachable_iff.mp hc a ha)

end Candidate

/-- A candidate, and whether it has fired. -/
structure Flagged where
  candidate : Candidate
  fired : Bool := false

namespace Relaxation

/-! ## Scans -/

/-- What a scan leaves: the flags, the atoms, and whether a flag was set. -/
structure Scan where
  flags : List Flagged
  reached : Std.HashSet GroundAtom
  changed : Bool

/-- One round. It fails if a condition cannot be grounded. -/
def scan : List Flagged → Std.HashSet GroundAtom → Option Scan
  | [], reached => some ⟨[], reached, false⟩
  | f :: fs, reached =>
    if f.fired then
      (scan fs reached).map fun s ↦ { s with flags := f :: s.flags }
    else
      match f.candidate.isApplicable? reached with
      | none => none
      | some false => (scan fs reached).map fun s ↦ { s with flags := f :: s.flags }
      | some true =>
        match f.candidate.adds? with
        | none => none
        | some added =>
          (scan fs (reached.insertMany added)).map fun s ↦
            { s with flags := { f with fired := true } :: s.flags, changed := true }

/-- The candidates that have no flag. -/
def idle (fs : List Flagged) : List Candidate :=
  (fs.filter fun f ↦ !f.fired).map (·.candidate)

variable {f : Flagged} {fs : List Flagged} {reached : Std.HashSet GroundAtom} {s : Scan}

theorem idle_cons_of_fired (hf : f.fired = true) : idle (f :: fs) = idle fs := by
  rw [idle, List.filter_cons_of_neg (by simp [hf]), idle]

theorem idle_cons_of_not_fired (hf : f.fired = false) :
    idle (f :: fs) = f.candidate :: idle fs := by
  rw [idle, List.filter_cons_of_pos (by simp [hf]), List.map_cons, idle]

/-- Flags are set and never taken away, and some flag is set if the scan says so. -/
theorem length_idle_scan (h : scan fs reached = some s) :
    (idle s.flags).length ≤ (idle fs).length ∧
      (s.changed = true → (idle s.flags).length < (idle fs).length) := by
  induction fs generalizing reached s with
  | nil =>
    obtain rfl := Option.some.inj h
    simp
  | cons f fs ih =>
    rw [scan] at h
    cases hf : f.fired with
    | true =>
      rw [if_pos hf] at h
      obtain ⟨t, ht, rfl⟩ := Option.map_eq_some_iff.mp h
      simpa only [idle_cons_of_fired hf] using ih ht
    | false =>
      rw [if_neg (by simp [hf])] at h
      split at h
      · cases h
      · obtain ⟨t, ht, rfl⟩ := Option.map_eq_some_iff.mp h
        simpa only [idle_cons_of_not_fired hf, List.length_cons, Nat.add_le_add_iff_right,
          Nat.add_lt_add_iff_right] using ih ht
      · split at h
        · cases h
        · obtain ⟨t, ht, rfl⟩ := Option.map_eq_some_iff.mp h
          have hle := (ih ht).1
          rw [idle_cons_of_fired rfl, idle_cons_of_not_fired hf, List.length_cons]
          exact ⟨by omega, fun _ ↦ by omega⟩

/-- Scans until one sets no flag, and counts the scans. -/
def scanAll (fs : List Flagged) (reached : Std.HashSet GroundAtom) : Option (Scan × Nat) :=
  match _h : scan fs reached with
  | none => none
  | some s =>
    if _hs : s.changed then
      (scanAll s.flags s.reached).map fun (t, n) ↦ (t, n + 1)
    else
      some (s, 1)
termination_by (idle fs).length
decreasing_by exact (length_idle_scan ‹_›).2 ‹_›

theorem scanAll_of_changed (h : scan fs reached = some s) (hs : s.changed = true) :
    scanAll fs reached = (scanAll s.flags s.reached).map fun (t, n) ↦ (t, n + 1) := by
  rw [scanAll]
  split
  · rename_i hnone
    cases h.symm.trans hnone
  · rename_i t ht
    obtain rfl := Option.some.inj (h.symm.trans ht)
    rw [dif_pos hs]

theorem scanAll_of_not_changed (h : scan fs reached = some s) (hs : ¬s.changed = true) :
    scanAll fs reached = some (s, 1) := by
  rw [scanAll]
  split
  · rename_i hnone
    cases h.symm.trans hnone
  · rename_i t ht
    obtain rfl := Option.some.inj (h.symm.trans ht)
    rw [dif_neg hs]

/-! ## Agreement -/

/-- The hash set has the atoms of a table, and what has a flag is reachable from them. -/
structure Keeps (fs : List Flagged) (reached : Std.HashSet GroundAtom) (table : AtomTable) :
    Prop where
  grounds : ∀ f ∈ fs, f.candidate.operator.Grounds f.candidate.args
  reached : ∀ a, a ∈ reached ↔ a ∈ table.toList
  fired : ∀ f ∈ fs, f.fired = true → f.candidate.isReachable table = true

variable {table : AtomTable}

theorem Keeps.tail (h : Keeps (f :: fs) reached table) : Keeps fs reached table :=
  ⟨fun g hg ↦ h.grounds g (List.mem_cons_of_mem f hg), h.reached,
    fun g hg ↦ h.fired g (List.mem_cons_of_mem f hg)⟩

theorem Keeps.cons (h : Keeps fs reached table)
    (hgrounds : f.candidate.operator.Grounds f.candidate.args)
    (hfired : f.fired = true → f.candidate.isReachable table = true) :
    Keeps (f :: fs) reached table :=
  ⟨List.forall_mem_cons.mpr ⟨hgrounds, h.grounds⟩, h.reached,
    List.forall_mem_cons.mpr ⟨hfired, h.fired⟩⟩

theorem Keeps.insertMany (h : Keeps fs reached table) (added : List GroundAtom) :
    Keeps fs (reached.insertMany added) (added.foldl Roster.insert table) where
  grounds := h.grounds
  reached a := by
    rw [Std.HashSet.mem_insertMany_list, h.reached, AtomTable.mem_foldl_insert_iff,
      List.contains_iff_mem]
  fired g hg hfired := Candidate.isReachable_mono
    (fun _ ha ↦ AtomTable.mem_foldl_insert_iff.mpr (.inl ha)) (h.fired g hg hfired)

/-- What a scan leaves of flags that are kept beside a table: the same candidates, those without
flags and the atoms being what a round makes of them. -/
structure Scan.Follows (s : Scan) (fs : List Flagged) (table : AtomTable) : Prop where
  candidates : s.flags.map (·.candidate) = fs.map (·.candidate)
  idle_eq : idle s.flags = (round (idle fs) table).1
  changed : s.changed = true ↔ (round (idle fs) table).1.length < (idle fs).length
  keeps : Keeps s.flags s.reached (round (idle fs) table).2

namespace Scan.Follows

variable (hgrounds : f.candidate.operator.Grounds f.candidate.args)

include hgrounds

theorem cons_of_fired (h : s.Follows fs table) (hf : f.fired = true)
    (hr : f.candidate.isReachable table = true) :
    Scan.Follows { s with flags := f :: s.flags } (f :: fs) table := by
  refine ⟨congrArg (f.candidate :: ·) h.candidates, ?_, ?_, ?_⟩
  · rw [idle_cons_of_fired hf, idle_cons_of_fired hf]
    exact h.idle_eq
  · rw [idle_cons_of_fired hf]
    exact h.changed
  · rw [idle_cons_of_fired hf]
    exact h.keeps.cons hgrounds fun _ ↦
      Candidate.isReachable_mono (fun _ ↦ mem_round_of_mem) hr

theorem cons_of_idle (h : s.Follows fs table) (hf : f.fired = false)
    (hr : ¬f.candidate.isReachable table = true) :
    Scan.Follows { s with flags := f :: s.flags } (f :: fs) table := by
  have hidle : idle (f :: fs) = f.candidate :: idle fs := idle_cons_of_not_fired hf
  have hround : round (f.candidate :: idle fs) table =
      (f.candidate :: (round (idle fs) table).1, (round (idle fs) table).2) := by
    rw [round, if_neg hr]
  refine ⟨congrArg (f.candidate :: ·) h.candidates, ?_, ?_, ?_⟩
  · rw [hidle, hround, idle_cons_of_not_fired hf, h.idle_eq]
  · rw [hidle, hround, List.length_cons, List.length_cons, Nat.add_lt_add_iff_right]
    exact h.changed
  · rw [hidle, hround]
    exact h.keeps.cons hgrounds fun hfired ↦ absurd hfired (by simp [hf])

/-- A candidate fires, and what it adds counts for those that follow. -/
theorem cons_of_reachable
    (h : s.Follows fs ((f.candidate.operator.adds f.candidate.args).foldl Roster.insert table))
    (hf : f.fired = false) (hr : f.candidate.isReachable table = true) :
    Scan.Follows { s with flags := { f with fired := true } :: s.flags, changed := true }
      (f :: fs) table := by
  have hidle : idle (f :: fs) = f.candidate :: idle fs := idle_cons_of_not_fired hf
  have hround : round (f.candidate :: idle fs) table = round (idle fs)
      ((f.candidate.operator.adds f.candidate.args).foldl Roster.insert table) := by
    rw [round, if_pos hr]
  refine ⟨congrArg (f.candidate :: ·) h.candidates, ?_, ?_, ?_⟩
  · rw [idle_cons_of_fired rfl, hidle, hround]
    exact h.idle_eq
  · rw [hidle, hround, List.length_cons]
    exact iff_of_true rfl (Nat.lt_succ_of_le (length_round_le _ _))
  · rw [hidle, hround]
    refine h.keeps.cons hgrounds fun _ ↦ Candidate.isReachable_mono (fun a ha ↦ ?_) hr
    exact mem_round_of_mem (AtomTable.mem_foldl_insert_iff.mpr (.inl ha))

end Scan.Follows

/-- **A scan is a round.** If all conditions can be grounded, then it cannot fail. -/
theorem Keeps.exists_scan (h : Keeps fs reached table) :
    ∃ s, scan fs reached = some s ∧ s.Follows fs table := by
  induction fs generalizing reached table with
  | nil => exact ⟨_, rfl, rfl, rfl, by simp [idle, round], h⟩
  | cons f fs ih =>
    have hgrounds := h.grounds f List.mem_cons_self
    rw [scan, Candidate.isApplicable?_eq hgrounds h.reached,
      show f.candidate.adds? = _ from hgrounds.mapM_atom?.2.1]
    cases hf : f.fired with
    | true =>
      obtain ⟨s, hs, hfollows⟩ := ih h.tail
      rw [hs]
      exact ⟨_, rfl, hfollows.cons_of_fired hgrounds hf (h.fired f List.mem_cons_self hf)⟩
    | false =>
      cases hr : f.candidate.isReachable table with
      | true =>
        obtain ⟨s, hs, hfollows⟩ :=
          ih (h.tail.insertMany (f.candidate.operator.adds f.candidate.args))
        simp only [hs]
        exact ⟨_, rfl, hfollows.cons_of_reachable hgrounds hf hr⟩
      | false =>
        obtain ⟨s, hs, hfollows⟩ := ih h.tail
        simp only [hs]
        exact ⟨_, rfl, hfollows.cons_of_idle hgrounds hf (by simp [hr])⟩

theorem mem_idle_iff {c : Candidate} :
    c ∈ idle fs ↔ ∃ f ∈ fs, f.fired = false ∧ f.candidate = c := by
  simp only [idle, List.mem_map, List.mem_filter, Bool.not_eq_true', and_assoc]

/-- After a scan that sets no flag, what has none is not reachable. -/
theorem Scan.Follows.fired_eq (h : s.Follows fs table) (hs : ¬s.changed = true) :
    ∀ f ∈ s.flags, f.fired = f.candidate.isReachable (round (idle fs) table).2 := by
  have hlength := Nat.le_of_not_lt (h.changed.not.mp hs)
  obtain ⟨htable, hunreachable⟩ := round_of_length_le hlength
  intro f hf
  cases hfired : f.fired with
  | true => exact (h.keeps.fired f hf hfired).symm
  | false =>
    have hidle : f.candidate ∈ (round (idle fs) table).1 :=
      h.idle_eq ▸ mem_idle_iff.mpr ⟨f, hf, hfired, rfl⟩
    rw [htable]
    exact (Bool.eq_false_iff.mpr
      (hunreachable _ (RelaxedGrounding.mem_of_mem_idle hidle))).symm

/-- **Scanning is saturation.** The scans reach the same atoms as the rounds, and are as many. In
the end the flags tell which candidates have their positive preconditions among these atoms. -/
theorem Keeps.exists_scanAll (h : Keeps fs reached table) :
    ∃ s, scanAll fs reached = some (s, (saturate (idle fs) table).2) ∧
      s.flags.map (·.candidate) = fs.map (·.candidate) ∧
      (∀ a, a ∈ s.reached ↔ a ∈ (saturate (idle fs) table).1.toList) ∧
      ∀ f ∈ s.flags, f.fired = f.candidate.isReachable (saturate (idle fs) table).1 := by
  induction fs, reached using scanAll.induct generalizing table with
  | case1 fs reached hnone =>
    obtain ⟨s, hs, _⟩ := h.exists_scan
    cases hs.symm.trans hnone
  | case2 fs reached s hs hchanged ih =>
    obtain ⟨t, ht, hfollows⟩ := h.exists_scan
    obtain rfl := Option.some.inj (hs.symm.trans ht)
    obtain ⟨t, ht, hcandidates, hreached, hflags⟩ := ih hfollows.keeps
    rw [hfollows.idle_eq] at ht hreached hflags
    rw [saturate, if_pos (hfollows.changed.mp hchanged), scanAll_of_changed hs hchanged, ht]
    exact ⟨t, rfl, hcandidates.trans hfollows.candidates, hreached, hflags⟩
  | case3 fs reached s hs hchanged =>
    obtain ⟨t, ht, hfollows⟩ := h.exists_scan
    obtain rfl := Option.some.inj (hs.symm.trans ht)
    rw [scanAll_of_not_changed hs hchanged, saturate, if_neg (hfollows.changed.not.mp hchanged)]
    exact ⟨s, rfl, hfollows.candidates, hfollows.keeps.reached, hfollows.fired_eq hchanged⟩

def fired (fs : List Flagged) : List Candidate :=
  (fs.filter (·.fired)).map (·.candidate)

theorem fired_eq_filter (h : ∀ f ∈ fs, f.fired = f.candidate.isReachable table) :
    fired fs = (fs.map (·.candidate)).filter (·.isReachable table) := by
  rw [fired, List.filter_congr h, List.filter_map]
  rfl

end Relaxation

/-! ## The grounder -/

namespace RelaxedGrounding

open Relaxation

/-- The candidates of a problem, none of which has fired. -/
def unfired (p : Problem) : List Flagged :=
  (candidatesOf p).map fun c ↦ { candidate := c }

theorem grounds_of_mem_candidatesOf
    (hsimple : ∀ op schema, p.operator? op = some schema → schema.Simple) {c : Candidate}
    (hc : c ∈ candidatesOf p) : c.operator.Grounds c.args := by
  obtain ⟨op, schema, hop, hargs, hflat⟩ := mem_candidatesOf_iff.mp hc
  have hlen : c.args.length = schema.arity :=
    (Eligibility.mem_combinations_setsOf_iff.mp hargs).1.trans (Eligibility.arity_byType hop)
  obtain ⟨name, _⟩ := Problem.operator?_eq_some_iff.mp hop
  have hflatten : FlatOperator.ofOperator p op name schema = .ok c.operator :=
    FlatOperator.ofOperator_eq_ok_iff.mpr ⟨hsimple op schema hop, hflat⟩
  exact FlatOperator.grounds_of_ofOperator hflatten hlen

theorem map_candidate_unfired : (unfired p).map (·.candidate) = candidatesOf p := by
  simp [unfired, Function.comp_def]

theorem idle_unfired : idle (unfired p) = candidatesOf p := by
  simp [idle, unfired, List.filter_map, Function.comp_def]

theorem keeps_unfired (hsimple : ∀ op schema, p.operator? op = some schema → schema.Simple) :
    Keeps (unfired p) (.ofList p.init) (p.init.foldl Roster.insert .empty) where
  grounds := List.forall_mem_map.mpr fun _ hc ↦ grounds_of_mem_candidatesOf hsimple hc
  reached a := by
    rw [Std.HashSet.mem_ofList, List.contains_iff_mem, AtomTable.mem_foldl_insert_iff]
    simp [Roster.empty, Roster.toList]
  fired := List.forall_mem_map.mpr fun _ _ h ↦ by cases h

/-- **The grounder enters what has fired.** On a problem that it accepts, the scans ground all
conditions, and there are as many of them as there are rounds. They flag the candidates that are
entered, in their order, and reach the atoms from which these are reachable. -/
theorem exists_scanAll_unfired {r : RelaxedGrounding} (h : ofProblem p = .ok r) :
    ∃ s, scanAll (unfired p) (.ofList p.init) = some (s, r.rounds) ∧
      s.flags.map (·.candidate) = candidatesOf p ∧
      (∀ a, a ∈ s.reached ↔ a ∈ (reachedOf p).toList) ∧
      (∀ c ∈ fired s.flags, c.operator.Grounds c.args) ∧
      ∃ goal, goalAtoms p = .ok goal ∧
        (fired s.flags).foldlM (addCandidate p) (addAtoms (addAtoms .empty p.init) goal) =
          .ok r.grounding := by
  obtain ⟨hsimple, hrounds, goal, hgoal, hfold⟩ := foldlM_of_ofProblem h
  obtain ⟨s, hs, hcandidates, hreached, hflags⟩ := (keeps_unfired hsimple).exists_scanAll
  rw [idle_unfired] at hs hreached hflags
  rw [map_candidate_unfired] at hcandidates
  have hfired : fired s.flags = enteredOf p := by
    rw [fired_eq_filter hflags, hcandidates]
    rfl
  refine ⟨s, hrounds ▸ hs, hcandidates, hreached, fun c hc ↦ ?_, goal, hgoal, hfired ▸ hfold⟩
  rw [hfired] at hc
  exact grounds_of_mem_candidatesOf hsimple (List.mem_filter.mp hc).1

end RelaxedGrounding

end LiftedPlanning
