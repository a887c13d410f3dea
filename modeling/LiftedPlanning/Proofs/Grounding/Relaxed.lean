import LiftedPlanning.Grounding.Relaxed
import LiftedPlanning.Proofs.Eligibility
import LiftedPlanning.Proofs.Grounding.Table
import LiftedPlanning.Proofs.Plan.Execution

/-!
# What the relaxed grounder finds

The atoms that are reached contain the initial atoms and are closed under the candidates: if all the
positive preconditions of an instance of an operator are reached, so are its positive effects. The
grounding lists the instances of which this is the case, and its universe contains all that they
mention.
-/

namespace LiftedPlanning

variable {p : Problem}

/-! ## Flat operators -/

namespace FlatOperator

def ofSimple (id : OperatorId) (op : Operator) : FlatOperator :=
  ⟨id, op, op.precondition.flat, op.effect.flat⟩

theorem ofOperator_eq_ok_iff {id : OperatorId} {name : String} {op : Operator} {f : FlatOperator} :
    ofOperator p id name op = .ok f ↔ op.Simple ∧ f = ofSimple id op := by
  rw [Operator.simple_iff, ofOperator]
  cases hpre : op.precondition.flat? with
  | none => simp [Formula.flat?_eq_none_iff.mp hpre]
  | some preconditions =>
    obtain ⟨hres, rfl⟩ := Formula.flat?_eq_some_iff.mp hpre
    cases heff : op.effect.flat? with
    | none => simp [Formula.flat?_eq_none_iff.mp heff]
    | some effects =>
      obtain ⟨hres', rfl⟩ := Formula.flat?_eq_some_iff.mp heff
      dsimp only
      split
      · rename_i c hc
        have hforeign := List.find?_some hc
        have hn : ¬∀ c ∈ op.precondition.flat ++ op.effect.flat, op.Scopes c := fun h ↦
          Operator.scopes_iff.mp (h c (List.mem_of_find?_eq_some hc)) hforeign
        simp only [hn, and_false, false_and, reduceCtorEq]
      · rename_i hc
        have hs : ∀ c ∈ op.precondition.flat ++ op.effect.flat, op.Scopes c := fun c hm ↦
          Operator.scopes_iff.mpr (List.find?_eq_none.mp hc c hm)
        simp only [hres, hres', true_and, iff_true_intro hs, Except.ok.injEq]
        exact eq_comm

variable {id : OperatorId} {op : Operator} {args : List ConstantId} {a : GroundAtom}

theorem mem_needs_iff (hop : p.operator? id = some op) :
    a ∈ (ofSimple id op).needs args ↔ p.HasCondition id args .precondition a false := by
  simp only [needs, ofSimple, List.mem_filterMap, List.mem_filter, atom?, Problem.HasCondition, hop,
    Option.some.injEq, exists_eq_left', Operator.formula, Bool.not_eq_true']
  exact exists_congr fun c ↦ by tauto

theorem mem_adds_iff (hop : p.operator? id = some op) :
    a ∈ (ofSimple id op).adds args ↔ p.HasCondition id args .effect a false := by
  simp only [adds, ofSimple, List.mem_filterMap, List.mem_filter, atom?, Problem.HasCondition, hop,
    Option.some.injEq, exists_eq_left', Operator.formula, Bool.not_eq_true']
  exact exists_congr fun c ↦ by tauto

theorem mem_mentions (hop : p.operator? id = some op) {role : Role} {negated : Bool}
    (h : p.HasCondition id args role a negated) : a ∈ (ofSimple id op).mentions args := by
  obtain ⟨schema, hop', c, hc, ha, _⟩ := h
  obtain rfl : op = schema := Option.some.inj (hop.symm.trans hop')
  refine List.mem_filterMap.mpr ⟨c, List.mem_append.mpr ?_, ha⟩
  cases role with
  | precondition => exact .inl hc
  | effect => exact .inr hc

/-- Under these arguments, all the conditions can be grounded. -/
def Grounds (f : FlatOperator) (args : List ConstantId) : Prop :=
  ∀ c ∈ f.preconditions ++ f.effects, ∃ a, f.atom? args c = some a

/-- The conditions of a flat operator use its parameters only, so arguments for all of these are
enough. -/
theorem grounds_of_ofOperator {name : String} {f : FlatOperator}
    (h : ofOperator p id name op = .ok f) (hlen : args.length = op.arity) : f.Grounds args := by
  obtain ⟨hsimple, rfl⟩ := ofOperator_eq_ok_iff.mp h
  exact fun c hc ↦ ((Operator.simple_iff.mp hsimple).2 c hc).exists_groundWith hlen

/-- **No condition is left out.** What is needed, added and mentioned comes from grounding the
conditions one by one, without a failure. -/
theorem Grounds.mapM_atom? {f : FlatOperator} (h : f.Grounds args) :
    (f.preconditions.filter fun c ↦ !c.negated).mapM (f.atom? args) = some (f.needs args) ∧
      (f.effects.filter fun c ↦ !c.negated).mapM (f.atom? args) = some (f.adds args) ∧
        (f.preconditions ++ f.effects).mapM (f.atom? args) = some (f.mentions args) := by
  refine ⟨Fallible.mapM_eq_some_filterMap fun c hc ↦ ?_,
    Fallible.mapM_eq_some_filterMap fun c hc ↦ ?_, Fallible.mapM_eq_some_filterMap h⟩
  · exact h c (List.mem_append_left _ (List.mem_filter.mp hc).1)
  · exact h c (List.mem_append_right _ (List.mem_filter.mp hc).1)

end FlatOperator

/-! ## Saturation -/

theorem Candidate.isReachable_iff {c : Candidate} {reached : AtomTable} :
    c.isReachable reached = true ↔ ∀ a ∈ c.operator.needs c.args, a ∈ reached.toList := by
  simp only [isReachable, List.all_eq_true, AtomTable.isSome_place?_iff]

namespace Relaxation

variable {cs : List Candidate} {reached : AtomTable}

theorem mem_round_of_mem {a : GroundAtom} (h : a ∈ reached.toList) :
    a ∈ (round cs reached).2.toList := by
  induction cs generalizing reached with
  | nil => exact h
  | cons c cs ih =>
    rw [round]
    split
    · exact ih (AtomTable.mem_foldl_insert_iff.mpr (.inl h))
    · exact ih h

theorem mem_idle_or_adds_round {c : Candidate} (hc : c ∈ cs) :
    c ∈ (round cs reached).1 ∨
      ∀ a ∈ c.operator.adds c.args, a ∈ (round cs reached).2.toList := by
  induction cs generalizing reached with
  | nil => cases hc
  | cons b cs ih =>
    rw [round]
    split
    · rcases List.mem_cons.mp hc with rfl | hc
      · exact .inr fun a ha ↦ mem_round_of_mem (AtomTable.mem_foldl_insert_iff.mpr (.inr ha))
      · exact ih hc
    · rcases List.mem_cons.mp hc with rfl | hc
      · exact .inl List.mem_cons_self
      · exact (ih hc).imp_left (List.mem_cons_of_mem b)

/-- A round that fires nothing reaches nothing, and no candidate is reachable after it. -/
theorem round_of_length_le (h : cs.length ≤ (round cs reached).1.length) :
    (round cs reached).2 = reached ∧ ∀ c ∈ cs, ¬c.isReachable reached = true := by
  induction cs generalizing reached with
  | nil => exact ⟨rfl, by simp⟩
  | cons c cs ih =>
    rw [round] at h ⊢
    split at h
    · have hle := length_round_le cs ((c.operator.adds c.args).foldl Roster.insert reached)
      rw [List.length_cons] at h
      omega
    · rename_i hc
      obtain ⟨heq, hcs⟩ := ih (Nat.le_of_succ_le_succ h)
      rw [if_neg hc]
      exact ⟨heq, List.forall_mem_cons.mpr ⟨hc, hcs⟩⟩

theorem mem_saturate_of_mem {a : GroundAtom} (h : a ∈ reached.toList) :
    a ∈ (saturate cs reached).1.toList := by
  induction cs, reached using saturate.induct with
  | case1 cs reached _ hlt _ _ _ ih =>
    rw [saturate, if_pos hlt]
    exact ih (mem_round_of_mem h)
  | case2 cs reached _ hlt =>
    rw [saturate, if_neg hlt]
    exact mem_round_of_mem h

/-- **Saturation is closed.** -/
theorem adds_mem_saturate {c : Candidate} (hc : c ∈ cs)
    (hr : c.isReachable (saturate cs reached).1 = true) :
    ∀ a ∈ c.operator.adds c.args, a ∈ (saturate cs reached).1.toList := by
  induction cs, reached using saturate.induct with
  | case1 cs reached _ hlt _ _ _ ih =>
    rw [saturate, if_pos hlt] at hr ⊢
    have hround : c ∈ (round cs reached).1 ∨ ∀ a ∈ c.operator.adds c.args,
        a ∈ (round cs reached).2.toList := mem_idle_or_adds_round hc
    -- what stays idle is left to the rounds to come
    rcases hround with hidle | hadds
    · exact ih hidle hr
    · exact fun a ha ↦ mem_saturate_of_mem (hadds a ha)
  | case2 cs reached _ hlt =>
    rw [saturate, if_neg hlt] at hr ⊢
    obtain ⟨heq, hno⟩ := round_of_length_le (Nat.le_of_not_lt hlt)
    rw [heq] at hr
    exact absurd hr (hno c hc)

end Relaxation

/-! ## Entering candidates -/

namespace RelaxedGrounding

variable {g g' : Grounding} {cs : List Candidate}

theorem addAtoms_eq (g : Grounding) (as : List GroundAtom) :
    addAtoms g as = { g with atomTable := as.foldl Roster.insert g.atomTable } := by
  induction as generalizing g with
  | nil => rfl
  | cons a as ih =>
    rw [addAtoms, List.foldl_cons, ← addAtoms, ih, Grounding.addAtom_eq, List.foldl_cons]

/-- A grounding comes from another one by entering candidates with the atoms they mention. -/
structure Entered (cs : List Candidate) (g g' : Grounding) : Prop where
  atoms : ∀ a ∈ g.atoms, a ∈ g'.atoms
  mentions : ∀ c ∈ cs, ∀ a ∈ c.operator.mentions c.args, a ∈ g'.atoms
  actions : ∀ a ∈ g.actions, a ∈ g'.actions
  listed : ∀ c ∈ cs, ∃ a ∈ g'.actions, a.operator = c.operator.id ∧ a.args = c.args
  origin : ∀ a ∈ g'.actions,
    a ∈ g.actions ∨ ∃ c ∈ cs, a.operator = c.operator.id ∧ a.args = c.args
  distinctAtoms : g.atomTable.Distinct → g'.atomTable.Distinct
  distinctActions : g.actionTable.Distinct → g'.actionTable.Distinct

theorem Entered.refl (g : Grounding) : Entered [] g g :=
  ⟨fun _ ↦ id, by simp, fun _ ↦ id, by simp, fun _ ↦ .inl, id, id⟩

theorem Entered.append {ds : List Candidate} {g'' : Grounding} (h : Entered cs g g')
    (h' : Entered ds g' g'') : Entered (cs ++ ds) g g'' where
  atoms a ha := h'.atoms a (h.atoms a ha)
  mentions c hc a ha := (List.mem_append.mp hc).elim
    (fun hc ↦ h'.atoms a (h.mentions c hc a ha)) (fun hc ↦ h'.mentions c hc a ha)
  actions a ha := h'.actions a (h.actions a ha)
  listed c hc := by
    rcases List.mem_append.mp hc with hc | hc
    · obtain ⟨a, ha, hk⟩ := h.listed c hc
      exact ⟨a, h'.actions a ha, hk⟩
    · exact h'.listed c hc
  origin a ha := by
    rcases h'.origin a ha with ha | ⟨c, hc, hk⟩
    · exact (h.origin a ha).imp_right fun ⟨c, hc, hk⟩ ↦ ⟨c, List.mem_append_left ds hc, hk⟩
    · exact .inr ⟨c, List.mem_append_right cs hc, hk⟩
  distinctAtoms hd := h'.distinctAtoms (h.distinctAtoms hd)
  distinctActions hd := h'.distinctActions (h.distinctActions hd)

theorem distinct_foldl_insert {t : AtomTable} (h : t.Distinct) (as : List GroundAtom) :
    (as.foldl Roster.insert t).Distinct := by
  induction as generalizing t with
  | nil => exact h
  | cons a as ih => exact ih (h.insert a)

theorem entered_of_addCandidate {c : Candidate} (h : addCandidate p g c = .ok g') :
    Entered [c] g g' := by
  rw [addCandidate] at h
  split at h
  · cases h
  · rename_i i g₁ hadd
    obtain ⟨name, schema, _, _, rfl⟩ := Grounding.addAction_eq_ok hadd
    obtain rfl := Except.ok.inj h
    rw [addAtoms_eq]
    constructor
    · exact fun a ha ↦ AtomTable.mem_foldl_insert_iff.mpr (.inl ha)
    · rw [List.forall_mem_singleton]
      exact fun a ha ↦ AtomTable.mem_foldl_insert_iff.mpr (.inr ha)
    · exact fun a ha ↦ Roster.mem_insert_of_mem ha
    · rw [List.forall_mem_singleton]
      obtain ⟨a, ha, hk⟩ := Roster.exists_mem_insert g.actionTable
        ⟨g.actionTable.size, c.operator.id, c.args,
          Problem.applied name (c.args.map p.constantName)⟩
      exact ⟨a, ha, Action.keyOf_inj.mp hk⟩
    · intro a ha
      refine (Roster.mem_or_eq_of_mem_insert ha).imp_right ?_
      rintro rfl
      exact ⟨c, List.mem_singleton_self c, rfl, rfl⟩
    · exact fun hd ↦ distinct_foldl_insert hd _
    · exact fun hd ↦ hd.insert _

theorem entered_of_foldlM (h : cs.foldlM (addCandidate p) g = .ok g') : Entered cs g g' := by
  induction cs generalizing g with
  | nil =>
    rw [List.foldlM_nil] at h
    exact Except.ok.inj h ▸ .refl g
  | cons c cs ih =>
    rw [List.foldlM_cons] at h
    obtain ⟨g₁, hc, h⟩ := Fallible.bind_eq_ok_iff.mp h
    exact (entered_of_addCandidate hc).append (ih h)

theorem isOver_addAtoms (h : g.IsOver p) (as : List GroundAtom) : (addAtoms g as).IsOver p := by
  induction as generalizing g with
  | nil => exact h
  | cons a as ih => exact ih (h.addAtom a)

theorem isOver_of_foldlM (hg : g.IsOver p)
    (hargs : ∀ c ∈ cs, ∀ arg ∈ c.args, arg.index < p.constants.size)
    (h : cs.foldlM (addCandidate p) g = .ok g') : g'.IsOver p := by
  induction cs generalizing g with
  | nil =>
    rw [List.foldlM_nil] at h
    exact Except.ok.inj h ▸ hg
  | cons c cs ih =>
    rw [List.foldlM_cons] at h
    obtain ⟨g₁, hadded, h⟩ := Fallible.bind_eq_ok_iff.mp h
    obtain ⟨hc, hcs⟩ := List.forall_mem_cons.mp hargs
    refine ih ?_ hcs h
    rw [addCandidate] at hadded
    split at hadded
    · cases hadded
    · rename_i i g₂ hadd
      exact Except.ok.inj hadded ▸ isOver_addAtoms (hg.addAction hc hadd) _

/-! ## Relaxed groundings -/

/-- An instance of an operator by constants of fitting types. -/
def IsCandidate (p : Problem) (op : OperatorId) (args : List ConstantId) : Prop :=
  ∃ schema, p.operator? op = some schema ∧ args ∈ combinations ((Eligibility.byType p).setsOf op)

/-- What a relaxed grounding has found, `reached` being the atoms that it has reached. -/
structure IsRelaxed (p : Problem) (g : Grounding) (reached : Set GroundAtom) : Prop where
  simple : ∀ op schema, p.operator? op = some schema → schema.Simple
  distinctAtoms : g.atomTable.Distinct
  distinctActions : g.actionTable.Distinct
  goal : ∀ c ∈ p.goal, ∃ atom, c.groundAtom? = some atom ∧ atom ∈ g.atoms
  candidate : ∀ a ∈ g.actions, IsCandidate p a.operator a.args
  known : ∀ a ∈ g.actions, ∀ role atom negated,
    p.HasCondition a.operator a.args role atom negated → atom ∈ g.atoms
  initial : ∀ atom ∈ p.init, atom ∈ reached
  listed : ∀ op args, IsCandidate p op args →
    (∀ atom, p.HasCondition op args .precondition atom false → atom ∈ reached) →
    ∃ a ∈ g.actions, a.operator = op ∧ a.args = args
  closed : ∀ op args, IsCandidate p op args →
    (∀ atom, p.HasCondition op args .precondition atom false → atom ∈ reached) →
    ∀ atom, p.HasCondition op args .effect atom false → atom ∈ reached

theorem goalAtoms_eq_ok {goal : List GroundAtom} (h : goalAtoms p = .ok goal) :
    ∀ c ∈ p.goal, ∃ atom, c.groundAtom? = some atom ∧ atom ∈ goal := by
  intro c hc
  obtain ⟨atom, ha, hok⟩ := Fallible.exists_right (Fallible.mapM_eq_ok_iff.mp h) hc
  split at hok
  · rename_i a hg
    exact ⟨a, hg, Except.ok.inj hok ▸ ha⟩
  · cases hok

/-- The candidates of a problem with simple operators. -/
def candidatesOf (p : Problem) : List Candidate :=
  (p.namedOperators.map fun entry ↦ FlatOperator.ofSimple entry.1 entry.2.2).flatMap
    (Candidate.ofOperator (.byType p))

theorem mem_candidatesOf_iff {c : Candidate} :
    c ∈ candidatesOf p ↔ ∃ op schema, p.operator? op = some schema ∧
      c.args ∈ combinations ((Eligibility.byType p).setsOf op) ∧
        c.operator = FlatOperator.ofSimple op schema := by
  simp only [candidatesOf, List.mem_flatMap, List.mem_map, Candidate.ofOperator, Prod.exists,
    Problem.operator?_eq_some_iff]
  constructor
  · rintro ⟨_, ⟨op, name, schema, hop, rfl⟩, args, hargs, rfl⟩
    exact ⟨op, schema, ⟨name, hop⟩, hargs, rfl⟩
  · rintro ⟨op, schema, ⟨name, hop⟩, hargs, hc⟩
    exact ⟨_, ⟨op, name, schema, hop, rfl⟩, c.args, hargs, by rw [← hc]⟩

/-- The atoms that are reached in a problem. -/
def reachedOf (p : Problem) : AtomTable :=
  (Relaxation.saturate (candidatesOf p) (p.init.foldl Roster.insert .empty)).1

/-- The candidates that the grounder enters. -/
def enteredOf (p : Problem) : List Candidate :=
  (candidatesOf p).filter (·.isReachable (reachedOf p))

theorem mem_enteredOf {op : OperatorId} {schema : Operator} {args : List ConstantId}
    (hop : p.operator? op = some schema)
    (hargs : args ∈ combinations ((Eligibility.byType p).setsOf op))
    (hpre : ∀ atom, p.HasCondition op args .precondition atom false →
      atom ∈ (reachedOf p).toList) :
    (⟨FlatOperator.ofSimple op schema, args⟩ : Candidate) ∈ enteredOf p := by
  refine List.mem_filter.mpr ⟨mem_candidatesOf_iff.mpr ⟨op, schema, hop, hargs, rfl⟩, ?_⟩
  exact Candidate.isReachable_iff.mpr fun a ha ↦ hpre a ((FlatOperator.mem_needs_iff hop).mp ha)

theorem Entered.exists_of_mem_actions (h : Entered (enteredOf p) g g') (hg : g.actions = [])
    {a : Action} (ha : a ∈ g'.actions) :
    ∃ schema, p.operator? a.operator = some schema ∧
      a.args ∈ combinations ((Eligibility.byType p).setsOf a.operator) ∧
        ∀ atom ∈ (FlatOperator.ofSimple a.operator schema).mentions a.args, atom ∈ g'.atoms := by
  rcases h.origin a ha with hnone | ⟨c, hc, hop, hargs⟩
  · rw [hg] at hnone
    exact absurd hnone List.not_mem_nil
  · obtain ⟨op, schema, hschema, hcomb, hflat⟩ :=
      mem_candidatesOf_iff.mp (List.mem_filter.mp hc).1
    have hment := h.mentions c hc
    rw [hflat] at hop hment
    obtain rfl : a.operator = op := hop
    rw [hargs]
    exact ⟨schema, hschema, hcomb, hment⟩

theorem index_lt_of_mem_candidatesOf {c : Candidate} (hc : c ∈ candidatesOf p) :
    ∀ arg ∈ c.args, arg.index < p.constants.size := by
  obtain ⟨op, schema, hop, hargs, _⟩ := mem_candidatesOf_iff.mp hc
  exact fun arg harg ↦ Handle.mem_first_iff.mp
    (Eligibility.mem_constantIds_of_mem_combinations_byType hop hargs arg harg)

/-- The relaxed grounder starts with the atoms of the initial state and of the goal, and it enters
the candidates of a problem with simple operators. -/
theorem foldlM_of_ofProblem {r : RelaxedGrounding} (h : ofProblem p = .ok r) :
    (∀ op schema, p.operator? op = some schema → schema.Simple) ∧
      r.rounds =
        (Relaxation.saturate (candidatesOf p) (p.init.foldl Roster.insert .empty)).2 ∧
      ∃ goal, goalAtoms p = .ok goal ∧
        (enteredOf p).foldlM (addCandidate p) (addAtoms (addAtoms .empty p.init) goal) =
          .ok r.grounding := by
  obtain ⟨operators, hops, h⟩ := Fallible.bind_eq_ok_iff.mp h
  rw [Fallible.mapM_eq_ok_map_iff (q := fun entry ↦ entry.2.2.Simple)
    (g := fun entry ↦ FlatOperator.ofSimple entry.1 entry.2.2)
    fun _ _ _ ↦ FlatOperator.ofOperator_eq_ok_iff] at hops
  obtain ⟨hsimple, rfl⟩ := hops
  obtain ⟨goal, hgoal, h⟩ := Fallible.bind_eq_ok_iff.mp h
  obtain ⟨g, hg, h⟩ := Fallible.bind_eq_ok_iff.mp h
  obtain rfl := Except.ok.inj h
  refine ⟨fun op schema hop ↦ ?_, rfl, goal, hgoal, hg⟩
  obtain ⟨name, hop⟩ := Problem.operator?_eq_some_iff.mp hop
  exact hsimple _ hop

theorem exists_of_ofProblem {r : RelaxedGrounding} (h : ofProblem p = .ok r) :
    (∀ op schema, p.operator? op = some schema → schema.Simple) ∧
      ∃ goal, goalAtoms p = .ok goal ∧
        Entered (enteredOf p) (addAtoms (addAtoms .empty p.init) goal) r.grounding := by
  obtain ⟨hsimple, _, goal, hgoal, hfold⟩ := foldlM_of_ofProblem h
  exact ⟨hsimple, goal, hgoal, entered_of_foldlM hfold⟩

theorem isOver_of_ofProblem {r : RelaxedGrounding} (h : ofProblem p = .ok r) :
    r.grounding.IsOver p := by
  obtain ⟨_, _, goal, _, hfold⟩ := foldlM_of_ofProblem h
  refine isOver_of_foldlM (isOver_addAtoms (isOver_addAtoms .empty p.init) goal) ?_ hfold
  exact fun c hc ↦ index_lt_of_mem_candidatesOf (List.mem_filter.mp hc).1

theorem isBuilt_of_ofProblem {r : RelaxedGrounding} (h : ofProblem p = .ok r) :
    r.grounding.IsBuilt :=
  (isOver_of_ofProblem h).isBuilt

/-- **What the relaxed grounder finds.** -/
theorem exists_isRelaxed {r : RelaxedGrounding} (h : ofProblem p = .ok r) :
    ∃ reached, IsRelaxed p r.grounding reached := by
  obtain ⟨hsimple, goal, hgoal, hent⟩ := exists_of_ofProblem h
  rw [addAtoms_eq, addAtoms_eq] at hent
  have hactions : ∀ a ∈ r.grounding.actions, ∃ schema, p.operator? a.operator = some schema ∧
      a.args ∈ combinations ((Eligibility.byType p).setsOf a.operator) ∧
        ∀ atom ∈ (FlatOperator.ofSimple a.operator schema).mentions a.args,
          atom ∈ r.grounding.atoms :=
    fun a ha ↦ hent.exists_of_mem_actions rfl ha
  refine ⟨{a | a ∈ (reachedOf p).toList}, hsimple, ?_, ?_, ?_, ?_, ?_, ?_, ?_, ?_⟩
  · exact hent.distinctAtoms
      (distinct_foldl_insert (distinct_foldl_insert Roster.distinct_empty _) _)
  · exact hent.distinctActions Roster.distinct_empty
  · intro c hc
    obtain ⟨atom, ha, hm⟩ := goalAtoms_eq_ok hgoal c hc
    exact ⟨atom, ha, hent.atoms atom (AtomTable.mem_foldl_insert_iff.mpr (.inr hm))⟩
  · intro a ha
    obtain ⟨schema, hop, hargs, _⟩ := hactions a ha
    exact ⟨schema, hop, hargs⟩
  · intro a ha role atom negated hc
    obtain ⟨schema, hop, _, hment⟩ := hactions a ha
    exact hment atom (FlatOperator.mem_mentions hop hc)
  · exact fun atom ha ↦
      Relaxation.mem_saturate_of_mem (AtomTable.mem_foldl_insert_iff.mpr (.inr ha))
  · rintro op args ⟨schema, hop, hargs⟩ hpre
    exact hent.listed _ (mem_enteredOf hop hargs hpre)
  · rintro op args ⟨schema, hop, hargs⟩ hpre atom hc
    obtain ⟨hm, hr⟩ := List.mem_filter.mp (mem_enteredOf hop hargs hpre)
    exact Relaxation.adds_mem_saturate hm hr atom ((FlatOperator.mem_adds_iff hop).mpr hc)

end RelaxedGrounding

end LiftedPlanning
