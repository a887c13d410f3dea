import Mathlib.Data.Set.Basic
import LiftedPlanning.Plan.Check
import LiftedPlanning.Proofs.Fallible
import LiftedPlanning.Proofs.Mapping

/-!
# Executed plans

The checker keeps the atoms that hold in a list. What it accepts depends on the members of that list
only, so an execution is described by sets of atoms: a plan is accepted exactly if every action is
applicable to the set that its step starts from, and if the goal holds in the last set.
-/

namespace LiftedPlanning

/-! ## Signs -/

/-- An atom has a sign in a set of atoms that hold. -/
def HasSign (w : Set GroundAtom) (atom : GroundAtom) (negated : Bool) : Prop :=
  atom ∈ w ↔ negated = false

theorem hasSign_not_iff {w : Set GroundAtom} {atom : GroundAtom} {negated : Bool} :
    HasSign w atom (!negated) ↔ ¬HasSign w atom negated := by
  cases negated <;> simp [HasSign]

def State.facts (s : State) : Set GroundAtom :=
  {a | a ∈ s}

theorem State.agrees_iff {s : State} {atom : GroundAtom} {negated : Bool} :
    s.agrees atom negated = true ↔ HasSign s.facts atom negated := by
  by_cases h : atom ∈ s <;> cases negated <;> simp [State.agrees, HasSign, State.facts, h]

theorem State.mem_facts_update {s : State} {deleted added : List GroundAtom} {atom : GroundAtom} :
    atom ∈ (s.update deleted added).facts ↔ atom ∈ added ∨ atom ∈ s.facts ∧ atom ∉ deleted := by
  simp [State.facts, State.update, or_comm]

/-- An instance of an operator has a signed atom among its conditions of a role. -/
def Problem.HasCondition (p : Problem) (op : OperatorId) (args : List ConstantId) (role : Role)
    (atom : GroundAtom) (negated : Bool) : Prop :=
  ∃ schema, p.operator? op = some schema ∧ ∃ c ∈ (schema.formula role).flat,
    c.groundWith (schema.argument? args) = some atom ∧ c.negated = negated

/-- The signed atoms of an instance of an operator, in a list. -/
def Problem.signedAtoms (p : Problem) (op : OperatorId) (args : List ConstantId) (role : Role) :
    List (GroundAtom × Bool) :=
  match p.operator? op with
  | none => []
  | some schema => (schema.formula role).flat.filterMap fun c ↦
      (c.groundWith (schema.argument? args)).map fun atom ↦ (atom, c.negated)

theorem Problem.mem_signedAtoms_iff {p : Problem} {op : OperatorId} {args : List ConstantId}
    {role : Role} {atom : GroundAtom} {negated : Bool} :
    (atom, negated) ∈ p.signedAtoms op args role ↔ p.HasCondition op args role atom negated := by
  rw [signedAtoms, HasCondition]
  cases p.operator? op with
  | none => simp
  | some schema => simp

namespace Plan

variable {p : Problem} {plan : Plan} {a : Action} {role : Role} {s : State} {w : Set GroundAtom}

/-! ## Actions -/

theorem groundConditions_eq_ok_iff {schema : Operator} (hop : p.operator? a.operator = some schema)
    {conditions : List (GroundAtom × Bool)} :
    groundConditions p a role = .ok conditions ↔ (schema.formula role).residual = none ∧
      List.Forall₂ (fun c signed ↦ c.groundWith (schema.argument? a.args) = some signed.1 ∧
        c.negated = signed.2) (schema.formula role).flat conditions := by
  simp only [groundConditions, hop]
  cases hflat : (schema.formula role).flat? with
  | none => simp [Formula.flat?_eq_none_iff.mp hflat]
  | some flat =>
    obtain ⟨hres, rfl⟩ := Formula.flat?_eq_some_iff.mp hflat
    rw [Fallible.mapM_eq_ok_iff, and_iff_right hres]
    refine Fallible.forall₂_congr_left fun c _ signed ↦ ?_
    cases c.groundWith (schema.argument? a.args) with
    | none => simp
    | some atom => simp [Prod.ext_iff]

theorem mem_groundConditions_iff {conditions : List (GroundAtom × Bool)}
    (h : groundConditions p a role = .ok conditions) {atom : GroundAtom} {negated : Bool} :
    (atom, negated) ∈ conditions ↔ p.HasCondition a.operator a.args role atom negated := by
  rw [Problem.HasCondition]
  cases hop : p.operator? a.operator with
  | none =>
    simp only [groundConditions, hop] at h
    cases h
  | some schema =>
    obtain ⟨_, hall⟩ := (groundConditions_eq_ok_iff hop).mp h
    simp only [Option.some.injEq, exists_eq_left']
    constructor
    · exact Fallible.exists_left hall
    · rintro ⟨c, hc, hg, rfl⟩
      obtain ⟨⟨atom', _⟩, hm, hg', rfl⟩ := Fallible.exists_right hall hc
      rw [hg, Option.some.injEq] at hg'
      exact hg' ▸ hm

theorem exists_groundConditions {schema : Operator} (hop : p.operator? a.operator = some schema)
    (hres : (schema.formula role).residual = none)
    (hscope : ∀ c ∈ (schema.formula role).flat, schema.Scopes c)
    (hlen : a.args.length = schema.arity) :
    ∃ conditions, groundConditions p a role = .ok conditions := by
  simp only [groundConditions_eq_ok_iff hop, hres, true_and]
  refine Fallible.exists_forall₂ fun c hc ↦ ?_
  obtain ⟨atom, hatom⟩ := (hscope c hc).exists_groundWith hlen
  exact ⟨(atom, c.negated), hatom, rfl⟩

/-- An action can be executed: its conditions can be read, and its preconditions hold. -/
structure Applicable (p : Problem) (w : Set GroundAtom) (a : Action) : Prop where
  readable : ∀ role, ∃ conditions, groundConditions p a role = .ok conditions
  holds : ∀ atom negated, p.HasCondition a.operator a.args .precondition atom negated →
    HasSign w atom negated

theorem checkPreconditions_eq_ok_iff :
    checkPreconditions p s a = .ok () ↔
      (∃ conditions, groundConditions p a .precondition = .ok conditions) ∧
        ∀ atom negated, p.HasCondition a.operator a.args .precondition atom negated →
          HasSign s.facts atom negated := by
  rw [checkPreconditions, Fallible.bind_eq_ok_iff, ← exists_and_right]
  refine exists_congr fun conditions ↦ and_congr_right fun h ↦ ?_
  simp only [← mem_groundConditions_iff h, ← State.agrees_iff]
  split
  · rename_i atom negated hf
    have hm := List.mem_of_find?_eq_some hf
    have hn := List.find?_some hf
    simp only [Bool.not_eq_true'] at hn
    refine ⟨nofun, fun hall ↦ ?_⟩
    rw [hall atom negated hm] at hn
    cases hn
  · rename_i hf
    refine ⟨fun _ atom negated hm ↦ ?_, fun _ ↦ rfl⟩
    simpa using List.find?_eq_none.mp hf _ hm

theorem checkAction_eq_ok_iff {step : Nat} {effects : List (GroundAtom × Bool)} :
    checkAction p s step a = .ok effects ↔
      Applicable p s.facts a ∧ groundConditions p a .effect = .ok effects := by
  rw [checkAction, Fallible.mapError_eq_ok_iff, Fallible.bind_eq_ok_iff]
  constructor
  · rintro ⟨⟨⟩, hpre, heff⟩
    obtain ⟨hread, hholds⟩ := checkPreconditions_eq_ok_iff.mp hpre
    exact ⟨⟨Role.forall_iff.mpr ⟨hread, effects, heff⟩, hholds⟩, heff⟩
  · rintro ⟨h, heff⟩
    exact ⟨(), checkPreconditions_eq_ok_iff.mpr ⟨h.readable .precondition, h.holds⟩, heff⟩

/-! ## Steps -/

/-- Some of the actions gives a sign to an atom. -/
def Brings (p : Problem) (actions : List Action) (atom : GroundAtom) (negated : Bool) : Prop :=
  ∃ a ∈ actions, p.HasCondition a.operator a.args .effect atom negated

/-- The atoms that hold after some actions were executed at once: what one of them adds holds,
whether or not another one deletes it. -/
def progress (p : Problem) (actions : List Action) (w : Set GroundAtom) : Set GroundAtom :=
  {atom | Brings p actions atom false ∨ atom ∈ w ∧ ¬Brings p actions atom true}

/-- A sign after a step is brought by the step, or it was there before and nothing changes it. -/
theorem hasSign_progress {actions : List Action} {atom : GroundAtom} {negated : Bool}
    (h : HasSign (progress p actions w) atom negated) :
    Brings p actions atom negated ∨ HasSign w atom negated ∧ ¬Brings p actions atom (!negated) := by
  cases negated with
  | false => simpa [HasSign, progress] using h
  | true =>
    have hn : ¬(Brings p actions atom false ∨ atom ∈ w ∧ ¬Brings p actions atom true) := by
      simpa [HasSign, progress] using h
    simp only [HasSign, Bool.not_true, Bool.true_eq_false, iff_false]
    tauto

/-- No atom is both added and deleted. -/
def Consistent (p : Problem) (actions : List Action) : Prop :=
  ∀ atom, ¬(Brings p actions atom false ∧ Brings p actions atom true)

theorem Consistent.mono {actions fewer : List Action} (h : Consistent p actions)
    (hsub : ∀ a ∈ fewer, a ∈ actions) : Consistent p fewer := by
  rintro atom ⟨⟨a, ha, hadd⟩, b, hb, hdel⟩
  exact h atom ⟨⟨a, hsub a ha, hadd⟩, b, hsub b hb, hdel⟩

instance (p : Problem) (actions : List Action) : Decidable (Consistent p actions) :=
  decidable_of_iff (∀ a ∈ actions, ∀ b ∈ actions, ∀ x ∈ p.signedAtoms a.operator a.args .effect,
      ∀ y ∈ p.signedAtoms b.operator b.args .effect, x.1 = y.1 → x.2 = y.2) <| by
    simp only [Prod.forall, Problem.mem_signedAtoms_iff]
    constructor
    · rintro h atom ⟨⟨a, ha, hc⟩, b, hb, hc'⟩
      exact nomatch h a ha b hb atom false hc atom true hc' rfl
    · rintro h a ha b hb atom negated hc _ negated' hc' rfl
      cases negated <;> cases negated'
      · rfl
      · exact (h atom ⟨⟨a, ha, hc⟩, b, hb, hc'⟩).elim
      · exact (h atom ⟨⟨b, hb, hc'⟩, a, ha, hc⟩).elim
      · rfl

theorem hasSign_of_brings {actions : List Action} (h : Consistent p actions) {atom : GroundAtom}
    {negated : Bool} (hb : Brings p actions atom negated) :
    HasSign (progress p actions w) atom negated := by
  have hatom := h atom
  cases negated <;> simp_all [HasSign, progress]

theorem progress_congr {actions actions' : List Action} (h : ∀ a, a ∈ actions ↔ a ∈ actions') :
    progress p actions w = progress p actions' w := by
  simp only [progress, Brings, h]

/-- A step that succeeds has applicable actions and leads to the atoms that hold after them. -/
theorem checkStep_eq_ok {step : Nat} {t : State} (h : checkStep p plan s step = .ok t) :
    (∀ a ∈ plan.actionsAt step, Applicable p s.facts a) ∧
      t.facts = progress p (plan.actionsAt step) s.facts := by
  obtain ⟨effects, heff, h⟩ := Fallible.bind_eq_ok_iff.mp h
  have hall := Fallible.mapM_eq_ok_iff.mp heff
  have hbrings : ∀ atom negated,
      (atom, negated) ∈ effects.flatten ↔ Brings p (plan.actionsAt step) atom negated := by
    intro atom negated
    rw [List.mem_flatten]
    constructor
    · rintro ⟨es, hes, hm⟩
      obtain ⟨a, ha, hok⟩ := Fallible.exists_left hall hes
      exact ⟨a, ha, (mem_groundConditions_iff (checkAction_eq_ok_iff.mp hok).2).mp hm⟩
    · rintro ⟨a, ha, hc⟩
      obtain ⟨es, hes, hok⟩ := Fallible.exists_right hall ha
      exact ⟨es, hes, (mem_groundConditions_iff (checkAction_eq_ok_iff.mp hok).2).mpr hc⟩
  refine ⟨fun a ha ↦ ?_, Set.ext fun atom ↦ ?_⟩
  · obtain ⟨_, _, hok⟩ := Fallible.exists_right hall ha
    exact (checkAction_eq_ok_iff.mp hok).1
  · rw [List.partition_eq_filter_filter] at h
    rw [← Except.ok.inj h, State.mem_facts_update]
    simp only [progress, Set.mem_ofPred_eq, ← hbrings]
    simp

theorem exists_checkStep {step : Nat} (h : ∀ a ∈ plan.actionsAt step, Applicable p s.facts a) :
    ∃ t, checkStep p plan s step = .ok t := by
  obtain ⟨effects, heff⟩ := Fallible.exists_mapM_eq_ok (f := checkAction p s step) fun a ha ↦ by
    obtain ⟨es, hes⟩ := (h a ha).readable .effect
    exact ⟨es, checkAction_eq_ok_iff.mpr ⟨h a ha, hes⟩⟩
  exact ⟨_, Fallible.bind_eq_ok_iff.mpr ⟨effects, heff, rfl⟩⟩

/-! ## Whole plans -/

/-- The atoms that hold before step `k` of a plan. -/
def factsAt (p : Problem) (plan : Plan) : Nat → Set GroundAtom
  | 0 => State.facts p.init
  | k + 1 => progress p (plan.actionsAt k) (factsAt p plan k)

/-- The goal is ground and holds. -/
def GoalHolds (p : Problem) (w : Set GroundAtom) : Prop :=
  ∀ c ∈ p.goal, ∃ atom, c.groundAtom? = some atom ∧ HasSign w atom c.negated

theorem checkGoal_eq_ok_iff {c : Condition} :
    checkGoal p s c = .ok () ↔
      ∃ atom, c.groundAtom? = some atom ∧ HasSign s.facts atom c.negated := by
  rw [checkGoal]
  split
  · rename_i h
    simp [h]
  · rename_i atom h
    simp [h, ← State.agrees_iff]

theorem foldlM_checkStep_eq_ok {n : Nat} {t : State}
    (h : (List.range n).foldlM (plan.checkStep p) p.init = .ok t) :
    (∀ k < n, ∀ a ∈ plan.actionsAt k, Applicable p (factsAt p plan k) a) ∧
      t.facts = factsAt p plan n := by
  induction n generalizing t with
  | zero =>
    rw [List.range_zero, List.foldlM_nil] at h
    exact ⟨by simp, by rw [← Except.ok.inj h, factsAt]⟩
  | succ n ih =>
    rw [List.range_succ, List.foldlM_append] at h
    obtain ⟨u, hu, h⟩ := Fallible.bind_eq_ok_iff.mp h
    obtain ⟨happ, hfacts⟩ := ih hu
    simp only [List.foldlM_cons, List.foldlM_nil, bind_pure] at h
    obtain ⟨happ', hfacts'⟩ := checkStep_eq_ok h
    rw [hfacts] at happ' hfacts'
    refine ⟨fun k hk ↦ ?_, hfacts'⟩
    rcases Nat.lt_succ_iff_lt_or_eq.mp hk with hk | rfl
    · exact happ k hk
    · exact happ'

theorem exists_foldlM_checkStep {n : Nat}
    (h : ∀ k < n, ∀ a ∈ plan.actionsAt k, Applicable p (factsAt p plan k) a) :
    ∃ t, (List.range n).foldlM (plan.checkStep p) p.init = .ok t := by
  induction n with
  | zero => exact ⟨p.init, rfl⟩
  | succ n ih =>
    obtain ⟨u, hu⟩ := ih fun k hk ↦ h k (Nat.lt_succ_of_lt hk)
    have happ := h n (Nat.lt_succ_self n)
    rw [← (foldlM_checkStep_eq_ok hu).2] at happ
    obtain ⟨t, ht⟩ := exists_checkStep happ
    refine ⟨t, ?_⟩
    rw [List.range_succ, List.foldlM_append]
    simp only [List.foldlM_cons, List.foldlM_nil, bind_pure]
    exact Fallible.bind_eq_ok_iff.mpr ⟨u, hu, ht⟩

/-- **What the checker accepts.** Every action is applicable before its step, and the goal holds
after the last one. -/
theorem check_eq_ok_iff :
    check p plan = .ok () ↔
      (∀ k < plan.makespan, ∀ a ∈ plan.actionsAt k, Applicable p (factsAt p plan k) a) ∧
        GoalHolds p (factsAt p plan plan.makespan) := by
  rw [check, Fallible.bind_eq_ok_iff]
  simp only [Fallible.forM_eq_ok_iff, checkGoal_eq_ok_iff]
  constructor
  · rintro ⟨t, ht, hgoal⟩
    obtain ⟨happ, hfacts⟩ := foldlM_checkStep_eq_ok ht
    rw [hfacts] at hgoal
    exact ⟨happ, hgoal⟩
  · rintro ⟨happ, hgoal⟩
    obtain ⟨t, ht⟩ := exists_foldlM_checkStep happ
    rw [GoalHolds, ← (foldlM_checkStep_eq_ok ht).2] at hgoal
    exact ⟨t, ht, hgoal⟩

theorem check_idle_zero (hnone : plan.entries = []) (h : check p plan = .ok ()) :
    check p (idle 0) = .ok () := by
  have hfacts : ∀ k, factsAt p plan k = State.facts p.init := by
    intro k
    induction k with
    | zero => rfl
    | succ k ih =>
      have hactions : plan.actionsAt k = [] := by
        rw [actionsAt, hnone, List.filter_nil, List.map_nil]
      rw [factsAt, ih, hactions]
      simp [progress, Brings]
  obtain ⟨_, hgoal⟩ := check_eq_ok_iff.mp h
  rw [hfacts] at hgoal
  exact check_eq_ok_iff.mpr ⟨fun k hk ↦ absurd hk (Nat.not_lt_zero k), hgoal⟩

end Plan

end LiftedPlanning
