import LiftedPlanning.Proofs.Grounding.Relaxed

/-!
# Real executions stay within the grounding

An execution may use the instances of all operators, not only those that the grounder has found, and
its preconditions and deletions are the real ones. The atoms that hold in it have nevertheless been
reached. This is an induction on the steps: what is executed has its positive preconditions among
atoms that were reached before, so the grounder has listed it, and has reached what it adds.
-/

namespace LiftedPlanning

variable {p : Problem}

/-! ## Instances of operators -/

/-- An operator is applied to declared constants of fitting types, one for each parameter. -/
def Problem.IsInstance (p : Problem) (op : OperatorId) (args : List ConstantId) : Prop :=
  ∃ schema, p.operator? op = some schema ∧
    List.Forall₂ (fun c v ↦ c ∈ p.constantIds ∧ p.fits v c = true) args schema.parameters

instance (p : Problem) (op : OperatorId) (args : List ConstantId) :
    Decidable (p.IsInstance op args) :=
  decidable_of_iff (∃ schema ∈ p.operator? op,
      List.Forall₂ (fun c v ↦ c ∈ p.constantIds ∧ p.fits v c = true) args schema.parameters)
    Iff.rfl

theorem RelaxedGrounding.isCandidate_iff {op : OperatorId} {args : List ConstantId} :
    IsCandidate p op args ↔ p.IsInstance op args := by
  refine exists_congr fun schema ↦ and_congr_right fun hop ↦ ?_
  rw [mem_combinations, Eligibility.setsOf_byType hop, List.forall₂_map_right_iff]
  simp only [List.mem_filter]

namespace Plan

/-! ## Executions -/

/-- The steps of a plan apply instances of operators, any number of them at once, and what they need
holds before the step. -/
structure IsExecution (p : Problem) (plan : Plan) : Prop where
  isInstance : ∀ k < plan.makespan, ∀ a ∈ plan.actionsAt k, p.IsInstance a.operator a.args
  holds : ∀ k < plan.makespan, ∀ a ∈ plan.actionsAt k, ∀ atom negated,
    p.HasCondition a.operator a.args .precondition atom negated →
      HasSign (plan.factsAt p k) atom negated

variable {plan : Plan}

theorem IsExecution.exists_foldlM_checkStep (h : plan.IsExecution p)
    (hsimple : ∀ op schema, p.operator? op = some schema → schema.Simple) {n : Nat}
    (hn : n ≤ plan.makespan) :
    ∃ s, (List.range n).foldlM (plan.checkStep p) p.init = .ok s := by
  refine Plan.exists_foldlM_checkStep fun k hk a ha ↦ ⟨fun role ↦ ?_, ?_⟩
  · obtain ⟨schema, hop, hargs⟩ := h.isInstance k (hk.trans_le hn) a ha
    obtain ⟨hres, hscope⟩ := hsimple _ schema hop role
    exact exists_groundConditions hop hres hscope hargs.length_eq
  · exact h.holds k (hk.trans_le hn) a ha

theorem IsExecution.mem_of_precondition (h : plan.IsExecution p) {k : Nat} (hk : k < plan.makespan)
    {a : Action} (ha : a ∈ plan.actionsAt k) {w : Set GroundAtom} (hfacts : plan.factsAt p k ⊆ w) :
    ∀ atom, p.HasCondition a.operator a.args .precondition atom false → atom ∈ w :=
  fun atom hc ↦ hfacts ((h.holds k hk a ha atom false hc).mpr rfl)

end Plan

namespace RelaxedGrounding

/-! ## Executions over relaxed groundings -/

section Execution

variable {g : Grounding} {reached : Set GroundAtom} {plan : Plan} {k : Nat} {a : Action}
  (hg : IsRelaxed p g reached) (h : plan.IsExecution p)

include hg h

theorem exists_mem_actions (hk : k < plan.makespan) (ha : a ∈ plan.actionsAt k)
    (hfacts : plan.factsAt p k ⊆ reached) :
    ∃ b ∈ g.actions, b.operator = a.operator ∧ b.args = a.args :=
  hg.listed _ _ (isCandidate_iff.mpr (h.isInstance k hk a ha))
    (h.mem_of_precondition hk ha hfacts)

theorem mem_atoms_of_hasCondition (hk : k < plan.makespan) (ha : a ∈ plan.actionsAt k)
    (hfacts : plan.factsAt p k ⊆ reached) {role : Role} {atom : GroundAtom} {negated : Bool}
    (hc : p.HasCondition a.operator a.args role atom negated) : atom ∈ g.atoms := by
  obtain ⟨b, hb, hop, hargs⟩ := exists_mem_actions hg h hk ha hfacts
  exact hg.known b hb role atom negated (by rwa [hop, hargs])

/-- Only reached atoms hold. Deletions do not matter, so a step of the execution can only lead to
atoms that were there before and to positive effects of instances. -/
theorem factsAt_subset_reached (hk : k ≤ plan.makespan) : plan.factsAt p k ⊆ reached := by
  induction k with
  | zero => exact fun atom ha ↦ hg.initial atom ha
  | succ k ih =>
    have hlt : k < plan.makespan := Nat.lt_of_succ_le hk
    have hfacts := ih (Nat.le_of_lt hlt)
    rintro atom (⟨a, ha, hc⟩ | ⟨hw, _⟩)
    · exact hg.closed _ _ (isCandidate_iff.mpr (h.isInstance k hlt a ha))
        (h.mem_of_precondition hlt ha hfacts) atom hc
    · exact hfacts hw

theorem factsAt_subset_atoms (hinit : ∀ atom ∈ p.init, atom ∈ g.atoms) (hk : k ≤ plan.makespan) :
    ∀ atom ∈ plan.factsAt p k, atom ∈ g.atoms := by
  induction k with
  | zero => exact hinit
  | succ k ih =>
    have hlt : k < plan.makespan := Nat.lt_of_succ_le hk
    have hfacts := factsAt_subset_reached hg h (Nat.le_of_lt hlt)
    rintro atom (⟨a, ha, hc⟩ | ⟨hw, _⟩)
    · exact mem_atoms_of_hasCondition hg h hlt ha hfacts hc
    · exact ih (Nat.le_of_lt hlt) atom hw

end Execution

theorem mem_atoms_of_mem_init {r : RelaxedGrounding} (hr : ofProblem p = .ok r) {atom : GroundAtom}
    (ha : atom ∈ p.init) : atom ∈ r.grounding.atoms := by
  obtain ⟨_, goal, _, hent⟩ := exists_of_ofProblem hr
  rw [addAtoms_eq, addAtoms_eq] at hent
  exact hent.atoms atom (AtomTable.mem_foldl_insert_iff.mpr
    (.inl (AtomTable.mem_foldl_insert_iff.mpr (.inr ha))))

/-! ## An example

A room can be visited once it is unlocked, and visiting it locks it again. The operator that visits
comes first, although it can only be used after the other one. -/

/-- Two rooms, and a key to one of them. -/
def rooms : Problem where
  types := ⟨{ kind := "type", entries := [("room", [])] }⟩
  constants := { kind := "constant", entries := [("a", ⟨0⟩), ("b", ⟨0⟩)] }
  predicates :=
    { kind := "predicate", entries := [("key", [⟨0⟩]), ("unlocked", [⟨0⟩]), ("visited", [⟨0⟩])] }
  parameters := [("x", ⟨0⟩), ("x", ⟨0⟩)]
  operators :=
    { kind := "operator"
      entries := [
        ("visit",
          { parameters := [⟨0⟩]
            precondition := .ofConditions [.positive ⟨1⟩ [.param ⟨0⟩]]
            effect := .ofConditions [.positive ⟨2⟩ [.param ⟨0⟩], .negative ⟨1⟩ [.param ⟨0⟩]] }),
        ("unlock",
          { parameters := [⟨1⟩]
            precondition := .ofConditions [.positive ⟨0⟩ [.param ⟨1⟩], .negative ⟨1⟩ [.param ⟨1⟩]]
            effect := .ofConditions [.positive ⟨1⟩ [.param ⟨1⟩]] })] }
  init := [⟨⟨0⟩, [⟨0⟩]⟩]
  goal := [.positive ⟨2⟩ [.const ⟨0⟩]]

def roomsRelaxed : RelaxedGrounding :=
  (ofProblem rooms).toOption.get (by decide +kernel)

/-- The room is unlocked, visited, and unlocked again. -/
def roomsPlan : Plan :=
  ⟨3, [(0, ⟨0, ⟨1⟩, [⟨0⟩], "unlock(a)"⟩), (1, ⟨1, ⟨0⟩, [⟨0⟩], "visit(a)"⟩),
    (2, ⟨0, ⟨1⟩, [⟨0⟩], "unlock(a)"⟩)]⟩

theorem isExecution_roomsPlan : roomsPlan.IsExecution rooms where
  isInstance := by decide +kernel
  holds := by
    have hcheck : roomsPlan.check rooms = .ok () := by decide +kernel
    exact fun k hk a ha ↦ ((Plan.check_eq_ok_iff.mp hcheck).1 k hk a ha).holds

/-! ## Coverage -/

/-- **The grounding covers every execution.** Take a problem that the grounder accepts, and a plan
whose steps apply instances of its operators that have what they need. Each of these instances is
an action of the grounding, and the universe has all the atoms that it mentions. The checker gets
through the plan, its states are those that the steps lead to, and only atoms of the universe hold
in them. -/
theorem covers_of_isExecution {r : RelaxedGrounding} (hr : ofProblem p = .ok r) {plan : Plan}
    (h : plan.IsExecution p) :
    (∀ k < plan.makespan, ∀ a ∈ plan.actionsAt k,
      (∃ b ∈ r.grounding.actions, b.operator = a.operator ∧ b.args = a.args) ∧
        ∀ role atom negated, p.HasCondition a.operator a.args role atom negated →
          atom ∈ r.grounding.atoms) ∧
      ∀ k ≤ plan.makespan, ∃ s, (List.range k).foldlM (plan.checkStep p) p.init = .ok s ∧
        State.facts s = plan.factsAt p k ∧ ∀ atom ∈ s, atom ∈ r.grounding.atoms := by
  obtain ⟨reached, hg⟩ := exists_isRelaxed hr
  refine ⟨fun k hk a ha ↦ ?_, fun k hk ↦ ?_⟩
  · have hfacts := factsAt_subset_reached hg h (Nat.le_of_lt hk)
    exact ⟨exists_mem_actions hg h hk ha hfacts,
      fun role atom negated hc ↦ mem_atoms_of_hasCondition hg h hk ha hfacts hc⟩
  · obtain ⟨s, hs⟩ := h.exists_foldlM_checkStep hg.simple hk
    have heq := (Plan.foldlM_checkStep_eq_ok hs).2
    have hfacts := factsAt_subset_atoms hg h (fun atom ↦ mem_atoms_of_mem_init hr) hk
    rw [← heq] at hfacts
    exact ⟨s, hs, heq, hfacts⟩

/-- The room can be unlocked again, although the visit has locked it. -/
theorem covers_roomsPlan :
    (∃ b ∈ roomsRelaxed.grounding.actions, b.operator = ⟨1⟩ ∧ b.args = [⟨0⟩]) ∧
      ∃ s, (List.range 3).foldlM (roomsPlan.checkStep rooms) rooms.init = .ok s ∧
        State.facts s = roomsPlan.factsAt rooms 3 ∧ ∀ atom ∈ s, atom ∈ roomsRelaxed.grounding.atoms := by
  have hr : ofProblem rooms = .ok roomsRelaxed := Fallible.eq_ok_get _
  obtain ⟨hactions, hstates⟩ := covers_of_isExecution hr isExecution_roomsPlan
  have hmem : ⟨0, ⟨1⟩, [⟨0⟩], "unlock(a)"⟩ ∈ roomsPlan.actionsAt 2 := by decide +kernel
  exact ⟨(hactions 2 (by decide) _ hmem).1, hstates 3 (by decide)⟩

end RelaxedGrounding

end LiftedPlanning
