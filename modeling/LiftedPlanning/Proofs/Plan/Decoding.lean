import LiftedPlanning.Plan.Decoding
import LiftedPlanning.Proofs.Fallible
import LiftedPlanning.Proofs.Grounding.Table
import LiftedPlanning.Proofs.Layout
import LiftedPlanning.Proofs.Plan.Entries

/-!
# Decoded plans

The plan that an assignment describes holds, at every step, the actions of the operators that run in
the block of that step. Decoding succeeds exactly if every active operator runs with arguments of a
known action.
-/

namespace LiftedPlanning.Plan

open Cnf (Assignment Literal)

variable {l : Layout} {g : Grounding} {m : Assignment}

/-! ## Single actions -/

theorem decodePosition_eq_ok_iff {offset : Nat} {op : OperatorId} {position : Nat}
    {c : ConstantId} :
    decodePosition l m offset op position = .ok c ↔ l.Selects (m.after offset) op position c := by
  simp only [decodePosition, Layout.Selects, Assignment.satisfies_after]
  split
  · rename_i h
    simp [h]
  · rename_i d literal h
    simp [h]
  · rename_i hmany
    refine ⟨nofun, fun ⟨literal, h⟩ ↦ ?_⟩
    exact absurd h (hmany c literal)

theorem decodeAction_eq_ok_iff {offset : Nat} {op : OperatorId} {a : Action}
    (hactive : (m.after offset).satisfies (l.active op) = true) :
    decodeAction l g m offset op = .ok a ↔
      ∃ args, l.Runs (m.after offset) op args ∧ g.action? op args = some a := by
  rw [decodeAction, Fallible.bind_eq_ok_iff]
  refine exists_congr fun args ↦ and_congr ?_ ?_
  · rw [Fallible.mapM_eq_ok_iff, Layout.positions, Fallible.forall₂_range_iff]
    simp only [decodePosition_eq_ok_iff]
    exact ⟨fun ⟨hlen, hs⟩ ↦ ⟨hactive, hlen, hs⟩, fun h ↦ ⟨h.length, h.selects⟩⟩
  · rw [Fallible.mapError_eq_ok_iff, Grounding.findAction]
    split
    · rename_i b hb
      rw [hb, Except.ok.injEq, Option.some.injEq]
    · rename_i hb
      simp [hb]

/-! ## Steps -/

/-- The operators that are active in the block after some variables, in order. -/
def activeOperators (l : Layout) (m : Assignment) : List OperatorId :=
  l.operators.filter fun op ↦ m.satisfies (l.active op)

theorem mem_activeOperators_iff {op : OperatorId} :
    op ∈ activeOperators l m ↔ op.index < l.operatorCount ∧ m.satisfies (l.active op) = true := by
  rw [activeOperators, List.mem_filter, Layout.mem_operators_iff]

theorem pairwise_activeOperators :
    (activeOperators l m).Pairwise fun op op' ↦ op.index < op'.index := by
  have hlt : l.operators.Pairwise fun op op' ↦ op.index < op'.index :=
    List.pairwise_map.mpr List.pairwise_lt_range
  exact hlt.filter _

/-- A decoded step pairs the step with the actions of the active operators, in order. -/
theorem decodeStep_eq_ok_iff {step : Nat} {entries : List (Nat × Action)} :
    decodeStep l g m step = .ok entries ↔
      List.Forall₂ (fun op entry ↦ entry.1 = step ∧ ∃ args,
          l.Runs (m.after (step * l.size)) op args ∧ g.action? op args = some entry.2)
        (activeOperators l (m.after (step * l.size))) entries := by
  have hactive : activeOperators l (m.after (step * l.size)) =
      l.operators.filter fun op ↦ m.satisfies ((l.active op).shift (step * l.size)) := by
    simp only [activeOperators, Assignment.satisfies_after]
  rw [decodeStep, Fallible.mapM_eq_ok_iff, ← hactive]
  refine Fallible.forall₂_congr_left fun op hop entry ↦ ?_
  have ha := (mem_activeOperators_iff.mp hop).2
  obtain ⟨k, a⟩ := entry
  simp only [← decodeAction_eq_ok_iff ha]
  split
  · rename_i b hb
    simp [hb, eq_comm]
  · rename_i cause hc
    simp [hc]

/-! ## Whole plans -/

/-- The entries of a step, if it can be decoded. -/
def stepEntries (l : Layout) (g : Grounding) (m : Assignment) (step : Nat) : List (Nat × Action) :=
  match decodeStep l g m step with
  | .ok entries => entries
  | .error _ => []

theorem stepEntries_eq {step : Nat} {entries : List (Nat × Action)}
    (h : decodeStep l g m step = .ok entries) : stepEntries l g m step = entries := by
  rw [stepEntries, h]

theorem decodeSteps_eq_ok_iff {n k : Nat} {entries : List (Nat × Action)} :
    decodeSteps l g m n k = .ok entries ↔
      (∀ i ∈ List.range' k n, ∃ xs, decodeStep l g m i = .ok xs) ∧
        entries = (List.range' k n).flatMap (stepEntries l g m) := by
  induction n generalizing k entries with
  | zero => simp [decodeSteps, pure, Except.pure, eq_comm]
  | succ n ih =>
    simp only [decodeSteps, Fallible.bind_eq_ok_iff, ih, List.range'_succ, List.flatMap_cons,
      List.forall_mem_cons, pure, Except.pure, Except.ok.injEq]
    constructor
    · rintro ⟨xs, hxs, _, ⟨hf, rfl⟩, rfl⟩
      exact ⟨⟨⟨xs, hxs⟩, hf⟩, by rw [stepEntries_eq hxs]⟩
    · rintro ⟨⟨⟨xs, hxs⟩, hf⟩, rfl⟩
      exact ⟨xs, hxs, _, ⟨hf, rfl⟩, by rw [stepEntries_eq hxs]⟩

/-- **The decoded plan.** Decoding succeeds if every step does, and lists the entries of the steps
one after the other. -/
theorem decode_eq_ok_iff {n : Nat} {plan : Plan} :
    decode l g m n = .ok plan ↔
      (∀ k < n, ∃ xs, decodeStep l g m k = .ok xs) ∧
        plan = ⟨n, (List.range n).flatMap (stepEntries l g m)⟩ := by
  rw [decode, Fallible.bind_eq_ok_iff]
  simp only [decodeSteps_eq_ok_iff, ← List.range_eq_range', List.mem_range, pure, Except.pure,
    Except.ok.injEq]
  constructor
  · rintro ⟨_, ⟨h, rfl⟩, rfl⟩
    exact ⟨h, rfl⟩
  · rintro ⟨h, rfl⟩
    exact ⟨_, ⟨h, rfl⟩, rfl⟩

theorem fst_of_mem_stepEntries {step : Nat} {entry : Nat × Action}
    (h : entry ∈ stepEntries l g m step) : entry.1 = step := by
  rw [stepEntries] at h
  split at h
  · rename_i entries he
    obtain ⟨op, _, hstep, _⟩ := Fallible.exists_left (decodeStep_eq_ok_iff.mp he) h
    exact hstep
  · cases h

theorem pairwise_stepEntries {step : Nat} : (stepEntries l g m step).Pairwise Before := by
  rw [stepEntries]
  split
  · rename_i entries he
    have hops := decodeStep_eq_ok_iff.mp he
    have hmap : List.map (fun entry ↦ entry.2.operator) entries =
        activeOperators l (m.after (step * l.size)) := by
      refine (List.forall₂_eq_eq_eq ▸ List.forall₂_map_right_iff.mpr (hops.imp ?_)).symm
      rintro op entry ⟨_, args, _, hact⟩
      exact (Grounding.mem_of_action? hact).2.1.symm
    have hlt := pairwise_activeOperators (l := l) (m := m.after (step * l.size))
    rw [← hmap, List.pairwise_map] at hlt
    refine hlt.imp_of_mem fun {x y} hx hy h ↦ .inr ⟨?_, h⟩
    obtain ⟨_, _, hstep, _⟩ := Fallible.exists_left hops hx
    obtain ⟨_, _, hstep', _⟩ := Fallible.exists_left hops hy
    rw [hstep, hstep']
  · exact .nil

theorem exists_decode_of_runs {n : Nat}
    (h : ∀ k < n, ∀ op ∈ l.operators, (m.after (k * l.size)).satisfies (l.active op) = true →
      ∃ args, l.Runs (m.after (k * l.size)) op args ∧
        ∃ a ∈ g.actions, a.operator = op ∧ a.args = args) :
    ∃ plan, decode l g m n = .ok plan := by
  refine ⟨_, decode_eq_ok_iff.mpr ⟨fun k hk ↦ ?_, rfl⟩⟩
  simp only [decodeStep_eq_ok_iff]
  refine Fallible.exists_forall₂ fun op hop ↦ ?_
  obtain ⟨hop, ha⟩ := List.mem_filter.mp hop
  obtain ⟨args, hr, hact⟩ := h k hk op hop ha
  obtain ⟨a, ha⟩ := Grounding.exists_action?_iff.mpr hact
  exact ⟨(k, a), rfl, args, hr, ha⟩

section Decoded

variable {n k : Nat} {plan : Plan} (hd : decode l g m n = .ok plan)

include hd

theorem makespan_of_decode : plan.makespan = n := by
  rw [(decode_eq_ok_iff.mp hd).2]

theorem mem_actionsAt_of_decode {a : Action} (ha : a ∈ plan.actionsAt k) :
    k < n ∧ a.operator.index < l.operatorCount ∧
      l.Runs (m.after (k * l.size)) a.operator a.args ∧
        g.action? a.operator a.args = some a := by
  obtain ⟨hsteps, rfl⟩ := decode_eq_ok_iff.mp hd
  obtain ⟨i, hi, hm⟩ := List.mem_flatMap.mp (mem_actionsAt_iff.mp ha)
  obtain rfl : k = i := fst_of_mem_stepEntries hm
  have hk : k < n := List.mem_range.mp hi
  obtain ⟨xs, hxs⟩ := hsteps k hk
  rw [stepEntries_eq hxs] at hm
  obtain ⟨op, hop, _, args, hruns, hact⟩ := Fallible.exists_left (decodeStep_eq_ok_iff.mp hxs) hm
  obtain ⟨_, rfl, rfl⟩ := Grounding.mem_of_action? hact
  exact ⟨hk, (mem_activeOperators_iff.mp hop).1, hruns, hact⟩

theorem exists_mem_actionsAt_of_decode (hk : k < n) {op : OperatorId}
    (hop : op.index < l.operatorCount)
    (hactive : (m.after (k * l.size)).satisfies (l.active op) = true) :
    ∃ a ∈ plan.actionsAt k, a.operator = op := by
  obtain ⟨hsteps, rfl⟩ := decode_eq_ok_iff.mp hd
  obtain ⟨xs, hxs⟩ := hsteps k hk
  obtain ⟨⟨i, a⟩, hm, rfl, args, _, hact⟩ := Fallible.exists_right (decodeStep_eq_ok_iff.mp hxs)
    (mem_activeOperators_iff.mpr ⟨hop, hactive⟩)
  refine ⟨a, mem_actionsAt_iff.mpr (List.mem_flatMap.mpr ⟨_, List.mem_range.mpr hk, ?_⟩),
    (Grounding.mem_of_action? hact).2.1⟩
  rwa [stepEntries_eq hxs]

/-- The actions of a step of the decoded plan are the known actions that run there. -/
theorem mem_actionsAt_iff_of_decode {a : Action} :
    a ∈ plan.actionsAt k ↔ k < n ∧ a.operator ∈ l.operators ∧
      l.Runs (m.after (k * l.size)) a.operator a.args ∧
        g.action? a.operator a.args = some a := by
  constructor
  · intro ha
    obtain ⟨hk, hop, h⟩ := mem_actionsAt_of_decode hd ha
    exact ⟨hk, Layout.mem_operators_iff.mpr hop, h⟩
  · rintro ⟨hk, hop, hruns, hact⟩
    obtain ⟨b, hb, hopb⟩ := exists_mem_actionsAt_of_decode hd hk
      (Layout.mem_operators_iff.mp hop) hruns.active
    obtain ⟨_, _, hruns', hact'⟩ := mem_actionsAt_of_decode hd hb
    rw [hopb] at hruns' hact'
    rw [hruns'.unique hruns, hact] at hact'
    rwa [Option.some.inj hact']

theorem pairwise_entries_of_decode : plan.entries.Pairwise Before := by
  obtain ⟨_, rfl⟩ := decode_eq_ok_iff.mp hd
  refine List.pairwise_flatMap.mpr ⟨fun _ _ ↦ pairwise_stepEntries, ?_⟩
  refine List.pairwise_lt_range.imp fun hlt x hx y hy ↦ .inl ?_
  rwa [fst_of_mem_stepEntries hx, fst_of_mem_stepEntries hy]

theorem foldlM_push?_of_decode :
    plan.entries.foldlM (fun q entry ↦ q.push? entry.1 entry.2) (idle n) = some plan := by
  have hwithin : ∀ entry ∈ plan.entries, entry.1 < n := fun entry hentry ↦
    (mem_actionsAt_of_decode hd (mem_actionsAt_iff.mpr hentry)).1
  rw [foldlM_push?_eq_some hwithin (pairwise_entries_of_decode hd)]
  rw [(decode_eq_ok_iff.mp hd).2]

end Decoded

end LiftedPlanning.Plan
