import LiftedPlanning.Proofs.Plan.Entries
import LiftedPlanning.Proofs.Plan.Execution

/-!
# One action after the other

Actions that are executed at once may as well be executed one after the other, provided that none of
them gives an atom the sign opposite to what a later one needs, and that no atom is both added and
deleted. The first condition keeps the later actions applicable, and the second one makes the atoms
that hold in the end independent of the order.
-/

namespace LiftedPlanning.Plan

variable {p : Problem} {plan : Plan} {w : Set GroundAtom} {actions : List Action}

/-! ## Sequences of actions -/

/-- The plan that executes a sequence of actions, one in each step. -/
def ofSequence (actions : List Action) : Plan :=
  ⟨actions.length, actions.zipIdx.map fun (a, i) ↦ (i, a)⟩

theorem mem_actionsAt_ofSequence_iff {k : Nat} {a : Action} :
    a ∈ (ofSequence actions).actionsAt k ↔ actions[k]? = some a := by
  simp only [mem_actionsAt_iff, ofSequence, List.mem_map, Prod.exists, List.mem_zipIdx_iff_getElem?]
  constructor
  · rintro ⟨_, _, h, he⟩
    obtain ⟨rfl, rfl⟩ := Prod.mk.inj he
    exact h
  · exact fun h ↦ ⟨a, k, h, rfl⟩

theorem pairwise_entries_ofSequence :
    (ofSequence actions).entries.Pairwise fun x y ↦ x.1 < y.1 := by
  rw [ofSequence, List.pairwise_map, List.pairwise_iff_getElem]
  intro i j hi hj hlt
  simpa using hlt

theorem of_mem_entries_ofSequence {entry : Nat × Action}
    (h : entry ∈ (ofSequence actions).entries) :
    entry.1 < actions.length ∧ entry.2 ∈ actions := by
  have ha := mem_actionsAt_ofSequence_iff.mp (mem_actionsAt_iff.mpr h)
  exact ⟨(List.getElem?_eq_some_iff.mp ha).1, List.mem_of_getElem? ha⟩

/-- The atoms that hold after a sequence of actions. -/
def progressAll (p : Problem) (w : Set GroundAtom) (actions : List Action) : Set GroundAtom :=
  actions.foldl (fun w a ↦ progress p [a] w) w

/-- Each action of a sequence can be executed when its turn comes. -/
def Executable (p : Problem) : Set GroundAtom → List Action → Prop
  | _, [] => True
  | w, a :: rest => Applicable p w a ∧ Executable p (progress p [a] w) rest

theorem progressAll_append {rest : List Action} :
    progressAll p w (actions ++ rest) = progressAll p (progressAll p w actions) rest :=
  List.foldl_append

theorem executable_append_iff {rest : List Action} :
    Executable p w (actions ++ rest) ↔
      Executable p w actions ∧ Executable p (progressAll p w actions) rest := by
  induction actions generalizing w with
  | nil => simp [Executable, progressAll]
  | cons a as ih =>
    rw [List.cons_append, Executable, ih, Executable, and_assoc]
    rfl

theorem executable_iff :
    Executable p w actions ↔
      ∀ k a, actions[k]? = some a → Applicable p (progressAll p w (actions.take k)) a := by
  induction actions generalizing w with
  | nil => simp [Executable]
  | cons b as ih =>
    rw [Executable, ih]
    constructor
    · rintro ⟨hb, has⟩ k a hk
      cases k with
      | zero =>
        obtain rfl : b = a := Option.some.inj hk
        exact hb
      | succ k => exact has k a hk
    · exact fun h ↦ ⟨h 0 b rfl, fun k a hk ↦ h (k + 1) a hk⟩

theorem factsAt_ofSequence {k : Nat} (hk : k ≤ actions.length) :
    factsAt p (ofSequence actions) k = progressAll p (State.facts p.init) (actions.take k) := by
  induction k with
  | zero => rfl
  | succ k ih =>
    have hstep : ∀ a, a ∈ (ofSequence actions).actionsAt k ↔ a ∈ [actions[k]] := fun a ↦ by
      rw [mem_actionsAt_ofSequence_iff, List.getElem?_eq_getElem hk, Option.some.injEq,
        List.mem_singleton, eq_comm]
    rw [factsAt, ih (Nat.le_of_lt hk), progress_congr hstep, List.take_succ_eq_append_getElem hk,
      progressAll_append]
    rfl

theorem check_ofSequence_eq_ok_iff :
    check p (ofSequence actions) = .ok () ↔ Executable p (State.facts p.init) actions ∧
      GoalHolds p (progressAll p (State.facts p.init) actions) := by
  have hend : factsAt p (ofSequence actions) (ofSequence actions).makespan =
      progressAll p (State.facts p.init) actions := by
    rw [show (ofSequence actions).makespan = actions.length from rfl,
      factsAt_ofSequence (Nat.le_refl _), List.take_length]
  rw [check_eq_ok_iff, hend, executable_iff]
  refine and_congr_left' ⟨fun h k a hk ↦ ?_, fun h k hk a ha ↦ ?_⟩
  · have hlt : k < actions.length := (List.getElem?_eq_some_iff.mp hk).1
    rw [← factsAt_ofSequence (Nat.le_of_lt hlt)]
    exact h k hlt a (mem_actionsAt_ofSequence_iff.mpr hk)
  · rw [factsAt_ofSequence (Nat.le_of_lt hk)]
    exact h k a (mem_actionsAt_ofSequence_iff.mp ha)

/-! ## Serializing steps -/

/-- No effect of an action has the sign opposite to a precondition of another one. -/
def Independent (p : Problem) (a b : Action) : Prop :=
  ∀ atom negated, p.HasCondition a.operator a.args .effect atom negated →
    ¬p.HasCondition b.operator b.args .precondition atom (!negated)

instance (p : Problem) (a b : Action) : Decidable (Independent p a b) :=
  decidable_of_iff (∀ x ∈ p.signedAtoms a.operator a.args .effect,
      ∀ y ∈ p.signedAtoms b.operator b.args .precondition, x.1 = y.1 → x.2 = y.2) <| by
    simp only [Prod.forall, Problem.mem_signedAtoms_iff]
    constructor
    · intro h atom negated hc hc'
      have := h atom negated hc atom _ hc' rfl
      cases negated <;> contradiction
    · rintro h atom negated hc _ negated' hc' rfl
      by_contra hne
      exact h atom negated hc (by rwa [Bool.not_eq.mpr hne])

/-- What does not depend on an action can still be executed after it. -/
theorem Applicable.progress {a b : Action} (hb : Applicable p w b) (h : Independent p a b) :
    Applicable p (progress p [a] w) b := by
  refine ⟨hb.readable, fun atom negated hc ↦ ?_⟩
  by_contra hn
  rcases hasSign_progress (hasSign_not_iff.mpr hn) with ⟨a', ha', heff⟩ | ⟨hw, _⟩
  · rw [List.mem_singleton.mp ha'] at heff
    exact h atom _ heff (by rwa [Bool.not_not])
  · exact hasSign_not_iff.mp hw (hb.holds atom negated hc)

theorem executable_of_pairwise (h : actions.Pairwise (Independent p))
    (happ : ∀ a ∈ actions, Applicable p w a) : Executable p w actions := by
  induction actions generalizing w with
  | nil => trivial
  | cons a rest ih =>
    obtain ⟨ha, hrest⟩ := List.pairwise_cons.mp h
    refine ⟨happ a List.mem_cons_self, ih hrest fun b hb ↦ ?_⟩
    exact (happ b (List.mem_cons_of_mem a hb)).progress (ha b hb)

theorem brings_cons_iff (a : Action) (rest : List Action) {atom : GroundAtom} {negated : Bool} :
    Brings p (a :: rest) atom negated ↔ Brings p [a] atom negated ∨ Brings p rest atom negated := by
  simp [Brings]

theorem progressAll_eq_progress (h : Consistent p actions) :
    progressAll p w actions = progress p actions w := by
  induction actions generalizing w with
  | nil => simp [progressAll, progress, Brings]
  | cons a rest ih =>
    have hrest : Consistent p rest := h.mono fun b hb ↦ List.mem_cons_of_mem a hb
    refine (ih hrest).trans (Set.ext fun atom ↦ ?_)
    have hatom := h atom
    simp only [progress, Set.mem_ofPred_eq, brings_cons_iff a rest] at hatom ⊢
    tauto

/-- **Steps can be serialized.** If the actions of the steps of an accepted plan are put into orders
in which none gets into the way of a later one, then executing them one after the other is accepted.
-/
theorem check_serialized {order : Nat → List Action} (hcheck : plan.check p = .ok ())
    (horder : ∀ k < plan.makespan, (order k).Perm (plan.actionsAt k))
    (hind : ∀ k < plan.makespan, (order k).Pairwise (Independent p))
    (hcons : ∀ k < plan.makespan, Consistent p (plan.actionsAt k)) :
    check p (ofSequence ((List.range plan.makespan).flatMap order)) = .ok () := by
  obtain ⟨happ, hgoal⟩ := check_eq_ok_iff.mp hcheck
  -- after the first `n` steps both executions have led to the same atoms
  have hserial : ∀ n ≤ plan.makespan,
      Executable p (State.facts p.init) ((List.range n).flatMap order) ∧
        progressAll p (State.facts p.init) ((List.range n).flatMap order) = factsAt p plan n := by
    intro n hn
    induction n with
    | zero => exact ⟨trivial, rfl⟩
    | succ n ih =>
      obtain ⟨hexec, hfacts⟩ := ih (Nat.le_of_succ_le hn)
      have hmem : ∀ a, a ∈ order n ↔ a ∈ plan.actionsAt n := fun a ↦ (horder n hn).mem_iff
      have hcons' : Consistent p (order n) := (hcons n hn).mono fun a ha ↦ (hmem a).mp ha
      rw [List.range_succ, List.flatMap_append, List.flatMap_singleton, executable_append_iff,
        progressAll_append, hfacts]
      refine ⟨⟨hexec, executable_of_pairwise (hind n hn) fun a ha ↦ ?_⟩, ?_⟩
      · exact happ n hn a ((hmem a).mp ha)
      · rw [progressAll_eq_progress hcons', progress_congr hmem, factsAt]
  obtain ⟨hexec, hfacts⟩ := hserial plan.makespan (Nat.le_refl _)
  exact check_ofSequence_eq_ok_iff.mpr ⟨hexec, hfacts ▸ hgoal⟩

end LiftedPlanning.Plan
