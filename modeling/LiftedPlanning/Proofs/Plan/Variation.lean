import Mathlib.Data.List.Forall2
import Mathlib.Logic.Relation
import LiftedPlanning.Proofs.Encoding.Soundness
import LiftedPlanning.Proofs.Plan.Execution

/-!
# Plans that do the same

What a plan comes to depends on the sets of actions that it executes one after the other, and on
nothing else: not on the order of the actions in a step, not on how often an action stands there,
and not on the steps in which nothing is done.

The checker goes through the numbers of the steps, and a step is what the entries with its number
say. Here an execution is taken along the list of its steps instead, so that a step can be left out
or put in without a shift of numbers in the induction. The numbers only come in where the plan is
turned into that list.
-/

namespace LiftedPlanning.Plan

variable {p : Problem} {plan plan' : Plan} {w : Set GroundAtom} {k : Nat}

/-! ## Executions along lists of steps -/

/-- The actions of the steps, a list for each step. -/
def steps (plan : Plan) : List (List Action) :=
  (List.range plan.makespan).map plan.actionsAt

/-- The steps in which something is done. -/
def busySteps (plan : Plan) : List (List Action) :=
  plan.steps.filter (· ≠ [])

/-- The steps can be executed one after the other, and the goal holds after the last one. -/
def Succeeds (p : Problem) : Set GroundAtom → List (List Action) → Prop
  | w, [] => GoalHolds p w
  | w, actions :: rest =>
    (∀ a ∈ actions, Applicable p w a) ∧ Succeeds p (progress p actions w) rest

theorem succeeds_range'_iff {n : Nat} :
    Succeeds p (factsAt p plan k) ((List.range' k n).map plan.actionsAt) ↔
      (∀ i ∈ List.range' k n, ∀ a ∈ plan.actionsAt i, Applicable p (factsAt p plan i) a) ∧
        GoalHolds p (factsAt p plan (k + n)) := by
  induction n generalizing k with
  | zero => simp [Succeeds]
  | succ n ih =>
    rw [List.range'_succ, List.map_cons, Succeeds, List.forall_mem_cons, and_assoc]
    have hrest := ih (k := k + 1)
    rw [factsAt, Nat.add_right_comm, Nat.add_assoc] at hrest
    rw [hrest]

theorem check_eq_ok_iff_succeeds :
    check p plan = .ok () ↔ Succeeds p (State.facts p.init) plan.steps := by
  have hsteps : Succeeds p (factsAt p plan 0) ((List.range' 0 plan.makespan).map plan.actionsAt) ↔
      _ ∧ _ := succeeds_range'_iff
  rw [Nat.zero_add, ← List.range_eq_range'] at hsteps
  simp only [List.mem_range] at hsteps
  rw [check_eq_ok_iff, ← hsteps]
  rfl

/-! ## What does not matter -/

def SameActions (xs ys : List Action) : Prop :=
  ∀ a, a ∈ xs ↔ a ∈ ys

theorem SameActions.eq_nil_iff {xs ys : List Action} (h : SameActions xs ys) :
    xs = [] ↔ ys = [] := by
  simp only [List.eq_nil_iff_forall_not_mem, h _]

theorem succeeds_congr {ss ts : List (List Action)} (h : List.Forall₂ SameActions ss ts) :
    Succeeds p w ss ↔ Succeeds p w ts := by
  induction h generalizing w with
  | nil => rfl
  | cons hactions _ ih =>
    rw [Succeeds, Succeeds, progress_congr hactions, ih]
    simp only [hactions _]

theorem progress_nil : progress p [] w = w := by
  simp [progress, Brings]

theorem succeeds_filter_iff (ss : List (List Action)) :
    Succeeds p w (ss.filter (· ≠ [])) ↔ Succeeds p w ss := by
  induction ss generalizing w with
  | nil => rfl
  | cons actions ss ih =>
    cases actions with
    | nil => simp [Succeeds, progress_nil, ← ih]
    | cons a rest =>
      rw [List.filter_cons_of_pos (by simp), Succeeds, Succeeds, ih]

/-- The sets of actions that a plan executes, one after the other. -/
def actionSets (plan : Plan) : List (Set Action) :=
  plan.busySteps.map fun actions ↦ {a | a ∈ actions}

theorem actionSets_eq_iff :
    plan.actionSets = plan'.actionSets ↔
      List.Forall₂ SameActions plan.busySteps plan'.busySteps := by
  rw [actionSets, actionSets, ← List.forall₂_eq_eq_eq, List.forall₂_map_left_iff,
    List.forall₂_map_right_iff]
  simp only [Set.ext_iff, Set.mem_ofPred_eq]
  rfl

theorem check_eq_ok_iff_of_actionSets (h : plan.actionSets = plan'.actionSets) :
    check p plan = .ok () ↔ check p plan' = .ok () := by
  rw [check_eq_ok_iff_succeeds, check_eq_ok_iff_succeeds, ← succeeds_filter_iff plan.steps,
    ← succeeds_filter_iff plan'.steps]
  exact succeeds_congr (actionSets_eq_iff.mp h)

/-! ## Edits -/

/-- The plan with a step in which nothing is done put in before step `k`. -/
def insertIdle (plan : Plan) (k : Nat) : Plan :=
  ⟨plan.makespan + 1, plan.entries.map fun (i, a) ↦ (if k ≤ i then i + 1 else i, a)⟩

/-- The plan without step `k`, in which nothing is done. -/
def removeIdle (plan : Plan) (k : Nat) : Plan :=
  ⟨plan.makespan - 1, plan.entries.map fun (i, a) ↦ (if k < i then i - 1 else i, a)⟩

/-- A change that leaves alone what a plan does. -/
inductive Edit : Plan → Plan → Prop
  /-- The actions of the steps are listed in other orders. -/
  | permute {plan plan' : Plan} (makespan : plan'.makespan = plan.makespan)
      (actions : ∀ i, (plan'.actionsAt i).Perm (plan.actionsAt i)) : Edit plan plan'
  /-- An action of a step is listed there once more. -/
  | double {plan plan' : Plan} {k : Nat} {a : Action} (makespan : plan'.makespan = plan.makespan)
      (mem : a ∈ plan.actionsAt k) (actions : plan'.actionsAt k = a :: plan.actionsAt k)
      (others : ∀ i ≠ k, plan'.actionsAt i = plan.actionsAt i) : Edit plan plan'
  /-- A step in which nothing is done is put in, and the later ones get the next numbers. -/
  | insert {plan : Plan} {k : Nat} (le : k ≤ plan.makespan) : Edit plan (plan.insertIdle k)
  /-- A step in which nothing is done is left out, and the later ones get the numbers before. -/
  | remove {plan : Plan} {k : Nat} (lt : k < plan.makespan) (idle : plan.actionsAt k = []) :
      Edit plan (plan.removeIdle k)

theorem actionSets_congr (hm : plan'.makespan = plan.makespan)
    (h : ∀ i, SameActions (plan.actionsAt i) (plan'.actionsAt i)) :
    plan.actionSets = plan'.actionSets := by
  rw [actionSets_eq_iff, busySteps, busySteps, steps, steps, hm]
  refine List.rel_filter (fun _ _ hactions ↦ ?_) ?_
  · simpa using not_congr hactions.eq_nil_iff
  · exact List.forall₂_map_left_iff.mpr (List.forall₂_map_right_iff.mpr
      (List.forall₂_same.mpr fun i _ ↦ h i))

theorem actionsAt_insertIdle {i : Nat} :
    (plan.insertIdle k).actionsAt i =
      if i < k then plan.actionsAt i else if i = k then [] else plan.actionsAt (i - 1) := by
  have hfilter : (plan.insertIdle k).actionsAt i =
      (plan.entries.filter fun entry ↦ (if k ≤ entry.1 then entry.1 + 1 else entry.1) = i).map
        (·.2) := by
    rw [actionsAt, insertIdle, List.filter_map, List.map_map]
    rfl
  rw [hfilter]
  split
  · rw [actionsAt]
    congr 1
    refine List.filter_congr fun entry _ ↦ ?_
    grind
  · split
    · rw [List.map_eq_nil_iff, List.filter_eq_nil_iff]
      intro entry _
      grind
    · rw [actionsAt]
      congr 1
      refine List.filter_congr fun entry _ ↦ ?_
      grind

theorem busySteps_insertIdle (hk : k ≤ plan.makespan) :
    (plan.insertIdle k).busySteps = plan.busySteps := by
  obtain ⟨n, hn⟩ := Nat.exists_eq_add_of_le hk
  have hbefore : (List.range k).map (plan.insertIdle k).actionsAt =
      (List.range k).map plan.actionsAt := by
    refine List.map_congr_left fun i hi ↦ ?_
    rw [actionsAt_insertIdle, if_pos (List.mem_range.mp hi)]
  have hidle : (plan.insertIdle k).actionsAt k = [] := by
    rw [actionsAt_insertIdle, if_neg (Nat.lt_irrefl k), if_pos rfl]
  have hafter : ∀ i, (plan.insertIdle k).actionsAt (k + 1 + i) = plan.actionsAt (k + i) := by
    intro i
    rw [actionsAt_insertIdle, if_neg (by omega), if_neg (by omega)]
    congr 1
    omega
  have hsteps : (plan.insertIdle k).steps =
      (List.range k).map plan.actionsAt ++ [] :: (List.range n).map (plan.actionsAt <| k + ·) := by
    have hlen : (plan.insertIdle k).makespan = k + 1 + n := by
      simp only [insertIdle, hn]
      omega
    rw [steps, hlen, List.range_add, List.range_succ, List.map_append, List.map_append, hbefore,
      List.map_singleton, hidle, List.map_map, List.append_assoc, List.singleton_append]
    simp only [Function.comp_def, hafter]
  rw [busySteps, busySteps, hsteps, steps, hn, List.range_add, List.map_append, List.map_map,
    List.filter_append, List.filter_append, List.filter_cons_of_neg (by simp)]
  rfl

theorem insertIdle_removeIdle (hk : k < plan.makespan) (h : plan.actionsAt k = []) :
    (plan.removeIdle k).insertIdle k = plan := by
  obtain ⟨makespan, entries⟩ := plan
  have hne : ∀ entry ∈ entries, entry.1 ≠ k := by
    rintro ⟨i, a⟩ he rfl
    have ha : a ∈ actionsAt ⟨makespan, entries⟩ i := mem_actionsAt_iff.mpr he
    rw [h] at ha
    cases ha
  rw [removeIdle, insertIdle, List.map_map, Plan.mk.injEq]
  refine ⟨Nat.sub_add_cancel (Nat.zero_lt_of_lt hk), ?_⟩
  refine (List.map_congr_left fun entry he ↦ ?_).trans (List.map_id _)
  have := hne entry he
  grind

/-- **Edits** leave the sets of actions as they are. -/
theorem Edit.actionSets_eq (h : Edit plan plan') : plan.actionSets = plan'.actionSets := by
  cases h with
  | permute makespan actions =>
    exact actionSets_congr makespan fun i a ↦ (actions i).mem_iff.symm
  | @double _ k a makespan mem actions others =>
    refine actionSets_congr makespan fun i b ↦ ?_
    by_cases hi : i = k
    · subst hi
      rw [actions, List.mem_cons]
      exact ⟨.inr, fun hb ↦ hb.elim (fun heq ↦ heq ▸ mem) id⟩
    · rw [others i hi]
  | insert le => rw [actionSets, actionSets, busySteps_insertIdle le]
  | @remove k lt idle =>
    have hle : k ≤ (plan.removeIdle k).makespan := Nat.le_sub_one_of_lt lt
    rw [actionSets, actionSets, ← busySteps_insertIdle hle, insertIdle_removeIdle lt idle]

/-- **Only the sets of actions matter.** Whether a plan is accepted depends on the sets of actions
that it executes one after the other. So it is not changed by listing the actions of a step in
another order, by repeating them there, or by putting in and leaving out steps in which nothing is
done, however often. -/
theorem check_eq_ok_iff_of_edits (p : Problem) (plan plan' : Plan) :
    (plan.actionSets = plan'.actionSets → (check p plan = .ok () ↔ check p plan' = .ok ())) ∧
      (Relation.ReflTransGen Edit plan plan' →
        plan.actionSets = plan'.actionSets ∧ (check p plan = .ok () ↔ check p plan' = .ok ())) := by
  refine ⟨check_eq_ok_iff_of_actionSets, fun h ↦ ?_⟩
  have hsets : plan.actionSets = plan'.actionSets := by
    induction h with
    | refl => rfl
    | tail _ hedit ih => exact ih.trans hedit.actionSets_eq
  exact ⟨hsets, check_eq_ok_iff_of_actionSets hsets⟩

theorem Edit.of_perm {n : Nat} {xs ys : List (Nat × Action)} (h : ys.Perm xs) :
    Edit ⟨n, xs⟩ ⟨n, ys⟩ :=
  .permute rfl fun i ↦ (h.filter fun entry : Nat × Action ↦ decide (entry.1 = i)).map Prod.snd

/-- Opening a door once more while the other one is rung at, and idling before that. -/
theorem check_editedDoorsPlan :
    Relation.ReflTransGen Edit Encoding.doorsPlan
        ⟨2, [(1, ⟨0, ⟨0⟩, [⟨0⟩], "open(a)"⟩), (1, ⟨1, ⟨1⟩, [⟨1⟩], "ring(b)"⟩),
          (1, ⟨0, ⟨0⟩, [⟨0⟩], "open(a)"⟩)]⟩ ∧
      check Encoding.doors
        ⟨2, [(1, ⟨0, ⟨0⟩, [⟨0⟩], "open(a)"⟩), (1, ⟨1, ⟨1⟩, [⟨1⟩], "ring(b)"⟩),
          (1, ⟨0, ⟨0⟩, [⟨0⟩], "open(a)"⟩)]⟩ = .ok () := by
  have hdouble : Edit
      ⟨1, [(0, ⟨1, ⟨1⟩, [⟨1⟩], "ring(b)"⟩), (0, ⟨0, ⟨0⟩, [⟨0⟩], "open(a)"⟩)]⟩
      ⟨1, [(0, ⟨0, ⟨0⟩, [⟨0⟩], "open(a)"⟩), (0, ⟨1, ⟨1⟩, [⟨1⟩], "ring(b)"⟩),
        (0, ⟨0, ⟨0⟩, [⟨0⟩], "open(a)"⟩)]⟩ := by
    refine .double (k := 0) (a := ⟨0, ⟨0⟩, [⟨0⟩], "open(a)"⟩) rfl (by decide) (by decide) ?_
    intro i hi
    simp [actionsAt, Ne.symm hi]
  have hedits := ((Relation.ReflTransGen.single (Edit.of_perm (.swap _ _ _))).tail hdouble).tail
    (.insert (k := 0) (Nat.zero_le _))
  have hcheck : check Encoding.doors Encoding.doorsPlan = .ok () := by decide +kernel
  exact ⟨hedits, ((check_eq_ok_iff_of_edits Encoding.doors _ _).2 hedits).2.mp hcheck⟩

end LiftedPlanning.Plan
