import LiftedPlanning.Proofs.Grounding.Coverage

/-!
# The grounder finds exactly what can be derived

An instance of an operator can be derived if it stands at the end of a sequence of instances each of
which finds its positive preconditions among the initial atoms and the positive effects of the
instances before it. The grounder scans its candidates in rounds and counts effects at once, so the
instances that have fired so far, in the order in which they have fired, are such a sequence.
Conversely the atoms that are reached in the end contain whatever a derivation provides. The tables
of the grounding then hold the derivable instances in the order of the candidates, and each atom
where it is first mentioned.
-/

namespace LiftedPlanning

variable {p : Problem}

/-! ## Derivations -/

namespace Problem

/-- Initially, or after some instances ignoring deletions, an atom holds. -/
def Provides (p : Problem) (steps : List (OperatorId × List ConstantId)) (atom : GroundAtom) :
    Prop :=
  atom ∈ p.init ∨ ∃ x ∈ steps, p.HasCondition x.1 x.2 .effect atom false

/-- A sequence of instances, the positive preconditions of each being provided by those before it.
-/
inductive IsDerivation (p : Problem) : List (OperatorId × List ConstantId) → Prop
  | nil : IsDerivation p []
  | concat {steps : List (OperatorId × List ConstantId)} {op : OperatorId} {args : List ConstantId}
      (h : IsDerivation p steps) (hinst : p.IsInstance op args)
      (hpre : ∀ atom, p.HasCondition op args .precondition atom false → p.Provides steps atom) :
      IsDerivation p (steps ++ [(op, args)])

/-- An instance stands at the end of a derivation. -/
def Derivable (p : Problem) (op : OperatorId) (args : List ConstantId) : Prop :=
  ∃ steps, p.IsDerivation (steps ++ [(op, args)])

variable {steps : List (OperatorId × List ConstantId)} {op : OperatorId} {args : List ConstantId}

theorem derivable_iff :
    p.Derivable op args ↔ p.IsInstance op args ∧ ∃ steps, p.IsDerivation steps ∧
      ∀ atom, p.HasCondition op args .precondition atom false → p.Provides steps atom := by
  constructor
  · rintro ⟨steps, h⟩
    generalize hlist : steps ++ [(op, args)] = list at h
    cases h with
    | nil => simp at hlist
    | concat h hinst hpre =>
      obtain ⟨rfl, hlast⟩ := List.append_inj' hlist rfl
      obtain ⟨rfl, rfl⟩ := Prod.mk.inj (List.singleton_inj.mp hlast)
      exact ⟨hinst, _, h, hpre⟩
  · rintro ⟨hinst, steps, h, hpre⟩
    exact ⟨steps, h.concat hinst hpre⟩

theorem Provides.append {atom : GroundAtom} (h : p.Provides steps atom)
    (more : List (OperatorId × List ConstantId)) : p.Provides (steps ++ more) atom :=
  h.imp_right fun ⟨x, hx, hc⟩ ↦ ⟨x, List.mem_append_left more hx, hc⟩

/-- The atoms that an instance mentions, whatever their signs: those of the precondition, then those
of the effect. -/
def mentioned (p : Problem) (op : OperatorId) (args : List ConstantId) : List GroundAtom :=
  (p.signedAtoms op args .precondition ++ p.signedAtoms op args .effect).map Prod.fst

/-- Operators in order of declaration, and the instances of each in odometer order. -/
def Precedes (x y : OperatorId × List ConstantId) : Prop :=
  x.1.index < y.1.index ∨ x.1 = y.1 ∧ x.2.map Handle.index < y.2.map Handle.index

theorem Precedes.ne {x y : OperatorId × List ConstantId} (h : Precedes x y) : x ≠ y := by
  rintro rfl
  rcases h with h | ⟨_, h⟩
  · exact Nat.lt_irrefl _ h
  · exact List.lt_irrefl _ h

end Problem

namespace RelaxedGrounding

/-! ## What is derived is reached -/

section Complete

variable {g : Grounding} {reached : Set GroundAtom} {op : OperatorId} {args : List ConstantId}
  (hg : IsRelaxed p g reached)

include hg

theorem mem_reached_of_provides {steps : List (OperatorId × List ConstantId)}
    (h : p.IsDerivation steps) : ∀ atom, p.Provides steps atom → atom ∈ reached := by
  induction h with
  | nil =>
    rintro atom (hinit | ⟨x, hx, _⟩)
    · exact hg.initial atom hinit
    · cases hx
  | concat _ hinst hpre ih =>
    rintro atom (hinit | ⟨x, hx, hc⟩)
    · exact hg.initial atom hinit
    · rcases List.mem_append.mp hx with hx | hx
      · exact ih atom (.inr ⟨x, hx, hc⟩)
      · obtain rfl := List.mem_singleton.mp hx
        exact hg.closed _ _ (isCandidate_iff.mpr hinst) (fun b hb ↦ ih b (hpre b hb)) atom hc

theorem exists_mem_actions_of_derivable (h : p.Derivable op args) :
    ∃ a ∈ g.actions, a.operator = op ∧ a.args = args := by
  obtain ⟨hinst, steps, hsteps, hpre⟩ := Problem.derivable_iff.mp h
  exact hg.listed op args (isCandidate_iff.mpr hinst)
    fun atom hc ↦ mem_reached_of_provides hg hsteps atom (hpre atom hc)

end Complete

/-! ## What is reached is derived -/

/-- Some derivation provides the atoms reached. -/
def Derived (p : Problem) (reached : AtomTable) : Prop :=
  ∃ steps, p.IsDerivation steps ∧ ∀ atom ∈ reached.toList, p.Provides steps atom

variable {c : Candidate} {cs : List Candidate} {reached : AtomTable}

theorem isInstance_of_mem_candidatesOf (hc : c ∈ candidatesOf p) :
    p.IsInstance c.operator.id c.args := by
  obtain ⟨op, schema, hop, hargs, hflat⟩ := mem_candidatesOf_iff.mp hc
  rw [hflat]
  exact isCandidate_iff.mp ⟨schema, hop, hargs⟩

theorem Derived.exists_steps (h : Derived p reached) (hc : c ∈ candidatesOf p)
    (hr : c.isReachable reached = true) :
    ∃ steps, p.IsDerivation steps ∧ (∀ atom ∈ reached.toList, p.Provides steps atom) ∧
      ∀ atom, p.HasCondition c.operator.id c.args .precondition atom false →
        p.Provides steps atom := by
  obtain ⟨steps, hsteps, hprov⟩ := h
  obtain ⟨op, schema, hop, _, hflat⟩ := mem_candidatesOf_iff.mp hc
  refine ⟨steps, hsteps, hprov, fun atom hcond ↦ hprov atom ?_⟩
  rw [Candidate.isReachable_iff, hflat] at hr
  rw [hflat] at hcond
  exact hr atom ((FlatOperator.mem_needs_iff hop).mpr hcond)

theorem derivable_of_isReachable (h : Derived p reached) (hc : c ∈ candidatesOf p)
    (hr : c.isReachable reached = true) : p.Derivable c.operator.id c.args := by
  obtain ⟨steps, hsteps, _, hpre⟩ := h.exists_steps hc hr
  exact Problem.derivable_iff.mpr ⟨isInstance_of_mem_candidatesOf hc, steps, hsteps, hpre⟩

theorem Derived.fire (h : Derived p reached) (hc : c ∈ candidatesOf p)
    (hr : c.isReachable reached = true) :
    Derived p ((c.operator.adds c.args).foldl Roster.insert reached) := by
  obtain ⟨steps, hsteps, hprov, hpre⟩ := h.exists_steps hc hr
  obtain ⟨op, schema, hop, _, hflat⟩ := mem_candidatesOf_iff.mp hc
  refine ⟨_, hsteps.concat (isInstance_of_mem_candidatesOf hc) hpre, fun atom ha ↦ ?_⟩
  rcases AtomTable.mem_foldl_insert_iff.mp ha with ha | ha
  · exact (hprov atom ha).append _
  · rw [hflat] at ha ⊢
    exact .inr ⟨_, List.mem_concat_self, (FlatOperator.mem_adds_iff hop).mp ha⟩

theorem Derived.round (h : Derived p reached) (hcs : ∀ c ∈ cs, c ∈ candidatesOf p) :
    Derived p (Relaxation.round cs reached).2 := by
  induction cs generalizing reached with
  | nil => exact h
  | cons c cs ih =>
    obtain ⟨hc, hcs⟩ := List.forall_mem_cons.mp hcs
    rw [Relaxation.round]
    split
    · rename_i hr
      exact ih (h.fire hc hr) hcs
    · exact ih h hcs

theorem mem_of_mem_idle (hc : c ∈ (Relaxation.round cs reached).1) : c ∈ cs := by
  induction cs generalizing reached with
  | nil => exact hc
  | cons b cs ih =>
    rw [Relaxation.round] at hc
    split at hc
    · exact List.mem_cons_of_mem b (ih hc)
    · rcases List.mem_cons.mp hc with rfl | hc
      · exact List.mem_cons_self
      · exact List.mem_cons_of_mem b (ih hc)

/-- **Saturation only reaches what can be derived.** -/
theorem Derived.saturate (h : Derived p reached) (hcs : ∀ c ∈ cs, c ∈ candidatesOf p) :
    Derived p (Relaxation.saturate cs reached).1 := by
  induction cs, reached using Relaxation.saturate.induct with
  | case1 cs reached _ hlt _ _ _ ih =>
    rw [Relaxation.saturate, if_pos hlt]
    exact ih (h.round hcs) fun c hc ↦ hcs c (mem_of_mem_idle hc)
  | case2 cs reached _ hlt =>
    rw [Relaxation.saturate, if_neg hlt]
    exact h.round hcs

theorem derived_reachedOf : Derived p (reachedOf p) := by
  refine Derived.saturate ⟨[], .nil, fun atom ha ↦ ?_⟩ fun _ ↦ id
  rcases AtomTable.mem_foldl_insert_iff.mp ha with ha | ha
  · simp [Roster.empty, Roster.toList] at ha
  · exact .inl ha

/-! ## The number of rounds -/

/-- The candidates that a round has not left over have fired, and are reachable ever after. -/
theorem countP_idle_add_le {final : AtomTable}
    (hfinal : ∀ a ∈ (Relaxation.round cs reached).2.toList, a ∈ final.toList) :
    (Relaxation.round cs reached).1.countP (·.isReachable final) + cs.length ≤
      cs.countP (·.isReachable final) + (Relaxation.round cs reached).1.length := by
  induction cs generalizing reached with
  | nil => simp [Relaxation.round]
  | cons c cs ih =>
    rw [Relaxation.round] at hfinal ⊢
    split at hfinal
    · rename_i hr
      have hlater : c.isReachable final = true := by
        rw [Candidate.isReachable_iff] at hr ⊢
        exact fun a ha ↦ hfinal a (Relaxation.mem_round_of_mem
          (AtomTable.mem_foldl_insert_iff.mpr (.inl (hr a ha))))
      have hrest := ih hfinal
      rw [if_pos hr, List.countP_cons, if_pos hlater, List.length_cons]
      omega
    · rename_i hr
      have hrest := ih hfinal
      rw [if_neg hr]
      simp only [List.countP_cons, List.length_cons]
      omega

/-- All rounds but the last one fire some candidate, and no candidate fires twice. -/
theorem rounds_saturate_le (cs : List Candidate) (reached : AtomTable) :
    (Relaxation.saturate cs reached).2 ≤
      cs.countP (·.isReachable (Relaxation.saturate cs reached).1) + 1 := by
  induction cs, reached using Relaxation.saturate.induct with
  | case1 cs reached result hlt _ _ _ ih =>
    rw [Relaxation.saturate, if_pos hlt]
    have hcount : result.1.countP (·.isReachable (Relaxation.saturate result.1 result.2).1) +
        cs.length ≤ cs.countP (·.isReachable (Relaxation.saturate result.1 result.2).1) +
          result.1.length :=
      countP_idle_add_le fun a ha ↦ Relaxation.mem_saturate_of_mem ha
    change (Relaxation.saturate result.1 result.2).2 + 1 ≤
      cs.countP (·.isReachable (Relaxation.saturate result.1 result.2).1) + 1
    omega
  | case2 cs reached _ hlt =>
    rw [Relaxation.saturate, if_neg hlt]
    exact Nat.le_add_left 1 _

/-! ## The tables of the grounding -/

def applicationOf (c : Candidate) : OperatorId × List ConstantId :=
  (c.operator.id, c.args)

theorem mentions_eq_mentioned (hc : c ∈ candidatesOf p) :
    c.operator.mentions c.args = p.mentioned c.operator.id c.args := by
  obtain ⟨op, schema, hop, _, hflat⟩ := mem_candidatesOf_iff.mp hc
  rw [hflat]
  have hop' : p.operator? (FlatOperator.ofSimple op schema).id = some schema := hop
  simp only [FlatOperator.mentions, Problem.mentioned, Problem.signedAtoms, hop', List.map_append,
    List.filterMap_append, List.map_filterMap, Option.map_map]
  congr 1 <;> exact List.filterMap_congr fun c _ ↦ Option.map_id'.symm

theorem exists_addCandidate {g : Grounding} (hc : c ∈ candidatesOf p)
    (hnew : applicationOf c ∉ g.actions.map Action.application) {xs : List GroundAtom}
    (hatoms : g.atoms = xs.eraseDups) :
    ∃ g', addCandidate p g c = .ok g' ∧
      g'.actions.map Action.application =
        g.actions.map Action.application ++ [applicationOf c] ∧
      g'.atoms = (xs ++ p.mentioned c.operator.id c.args).eraseDups := by
  obtain ⟨schema, hop, hargs⟩ := isInstance_of_mem_candidatesOf hc
  obtain ⟨i, g', hadd, hatoms', hactions⟩ :=
    Grounding.exists_addAction hop hargs.length_eq hnew
  refine ⟨addAtoms g' (c.operator.mentions c.args), by rw [addCandidate, hadd], ?_, ?_⟩
  · rw [addAtoms_eq]
    exact hactions
  · rw [addAtoms_eq, ← mentions_eq_mentioned hc]
    exact AtomTable.toList_foldl_insert (hatoms'.trans hatoms) _

theorem exists_foldlM_addCandidate {g : Grounding} (hcs : ∀ c ∈ cs, c ∈ candidatesOf p)
    (hnew : (g.actions.map Action.application ++ cs.map applicationOf).Nodup) {xs : List GroundAtom}
    (hatoms : g.atoms = xs.eraseDups) :
    ∃ g', cs.foldlM (addCandidate p) g = .ok g' ∧
      g'.actions.map Action.application =
        g.actions.map Action.application ++ cs.map applicationOf ∧
      g'.atoms = (xs ++ cs.flatMap fun c ↦ p.mentioned c.operator.id c.args).eraseDups := by
  induction cs generalizing g xs with
  | nil => exact ⟨g, rfl, by simp, by simpa using hatoms⟩
  | cons c cs ih =>
    obtain ⟨hc, hcs⟩ := List.forall_mem_cons.mp hcs
    rw [List.map_cons] at hnew ⊢
    have hfresh : applicationOf c ∉ g.actions.map Action.application := fun hm ↦
      List.disjoint_of_nodup_append hnew hm List.mem_cons_self
    obtain ⟨g₁, hstep, hactions₁, hatoms₁⟩ := exists_addCandidate hc hfresh hatoms
    rw [List.append_cons, ← hactions₁] at hnew ⊢
    obtain ⟨g', hrest, hactions, hatoms⟩ := ih hcs hnew hatoms₁
    rw [List.flatMap_cons, ← List.append_assoc]
    exact ⟨g', by rw [List.foldlM_cons, hstep]; exact hrest, hactions, hatoms⟩

/-! ## The order of the candidates -/

theorem pairwise_namedOperators :
    p.namedOperators.Pairwise fun x y ↦ x.1.index < y.1.index := by
  rw [Problem.namedOperators, List.pairwise_map, List.pairwise_iff_getElem]
  intro i j hi hj hlt
  simpa using hlt

theorem pairwise_constantIds : p.constantIds.Pairwise fun c d ↦ c.index < d.index := by
  rw [Problem.constantIds, Handle.first, List.pairwise_map]
  exact List.pairwise_lt_range

theorem map_index_lt {xs ys : List ConstantId}
    (h : List.Lex (fun c d ↦ c.index < d.index) xs ys) :
    xs.map Handle.index < ys.map Handle.index := by
  induction h with
  | nil => exact .nil
  | rel h => exact .rel h
  | cons _ ih => exact .cons ih

/-- The candidates are in order of declaration, and those of an operator in odometer order. -/
theorem pairwise_candidatesOf : ((candidatesOf p).map applicationOf).Pairwise Problem.Precedes := by
  rw [candidatesOf, List.flatMap_map, List.map_flatMap, List.pairwise_flatMap]
  refine ⟨fun entry hentry ↦ ?_, pairwise_namedOperators.imp fun {x y} hlt ↦ ?_⟩
  · have hop := Problem.operator?_eq_some_iff.mpr ⟨entry.2.1, hentry⟩
    have hsets : ∀ set ∈ (Eligibility.byType p).setsOf entry.1,
        set.Pairwise fun c d ↦ c.index < d.index := by
      rw [Eligibility.setsOf_byType hop, List.forall_mem_map]
      exact fun v _ ↦ pairwise_constantIds.filter _
    rw [Candidate.ofOperator, List.map_map, List.pairwise_map]
    exact (pairwise_combinations hsets).imp fun hlex ↦ .inr ⟨rfl, map_index_lt hlex⟩
  · simp only [Candidate.ofOperator, List.map_map, List.forall_mem_map]
    exact fun _ _ _ _ ↦ .inl hlt

theorem pairwise_enteredOf : ((enteredOf p).map applicationOf).Pairwise Problem.Precedes :=
  pairwise_candidatesOf.sublist (List.filter_sublist.map applicationOf)

/-! ## The result -/

theorem mapM_ofOperator (hsimple : ∀ op schema, p.operator? op = some schema → schema.Simple) :
    p.namedOperators.mapM (fun (id, name, op) ↦ FlatOperator.ofOperator p id name op) =
      .ok (p.namedOperators.map fun entry ↦ FlatOperator.ofSimple entry.1 entry.2.2) := by
  rw [Fallible.mapM_eq_ok_map_iff (q := fun entry ↦ entry.2.2.Simple)
    (g := fun entry ↦ FlatOperator.ofSimple entry.1 entry.2.2)
    fun _ _ _ ↦ FlatOperator.ofOperator_eq_ok_iff]
  exact ⟨fun entry hentry ↦ hsimple _ _ (Problem.operator?_eq_some_iff.mpr ⟨_, hentry⟩), rfl⟩

theorem goalAtoms_of_isGround (hgoal : ∀ c ∈ p.goal, c.isGround = true) :
    goalAtoms p = .ok (p.goal.filterMap Condition.groundAtom?) := by
  rw [goalAtoms, Fallible.mapM_eq_ok_iff]
  generalize p.goal = goal at hgoal
  induction goal with
  | nil => exact .nil
  | cons c goal ih =>
    obtain ⟨hc, hgoal⟩ := List.forall_mem_cons.mp hgoal
    obtain ⟨atom, ha⟩ := Condition.exists_groundAtom? hc
    rw [List.filterMap_cons_some ha]
    exact .cons (by rw [ha]) (ih hgoal)

theorem atoms_addAtoms_empty (atoms : List GroundAtom) :
    (addAtoms .empty atoms).atoms = atoms.eraseDups := by
  have hempty : Grounding.empty.atomTable.toList = ([] : List GroundAtom).eraseDups := rfl
  rw [addAtoms_eq]
  exact AtomTable.toList_foldl_insert hempty atoms

theorem actions_addAtoms_empty (atoms : List GroundAtom) :
    (addAtoms .empty atoms).actions = [] := by
  rw [addAtoms_eq]
  rfl

/-- **What the grounder makes of a problem.** It cannot fail if the operators are simple and the
goal is ground. -/
theorem exists_ofProblem (hsimple : ∀ op schema, p.operator? op = some schema → schema.Simple)
    (hgoal : ∀ c ∈ p.goal, c.isGround = true) :
    ∃ r, ofProblem p = .ok r ∧
      r.grounding.actions.map Action.application = (enteredOf p).map applicationOf ∧
      r.grounding.atoms = (p.init ++ p.goal.filterMap Condition.groundAtom? ++
        (enteredOf p).flatMap fun c ↦ p.mentioned c.operator.id c.args).eraseDups ∧
      r.rounds ≤ (enteredOf p).length + 1 := by
  have hactions := actions_addAtoms_empty (p.init ++ p.goal.filterMap Condition.groundAtom?)
  have hnodup : ((enteredOf p).map applicationOf).Nodup :=
    pairwise_enteredOf.imp Problem.Precedes.ne
  have hcandidates : ∀ c ∈ enteredOf p, c ∈ candidatesOf p := fun c hc ↦ (List.mem_filter.mp hc).1
  obtain ⟨g, hg, hactions', hatoms⟩ :=
    exists_foldlM_addCandidate hcandidates (by rwa [hactions]) (atoms_addAtoms_empty _)
  rw [hactions] at hactions'
  refine ⟨⟨g, (Relaxation.saturate (candidatesOf p) (p.init.foldl Roster.insert .empty)).2⟩, ?_,
    hactions', hatoms, ?_⟩
  · rw [ofProblem, mapM_ofOperator hsimple]
    refine Fallible.bind_eq_ok_iff.mpr ⟨_, rfl, Fallible.bind_eq_ok_iff.mpr
      ⟨_, goalAtoms_of_isGround hgoal, Fallible.bind_eq_ok_iff.mpr ⟨g, ?_, rfl⟩⟩⟩
    rw [addAtoms, List.foldl_append] at hg
    exact hg
  · rw [enteredOf, ← List.countP_eq_length_filter]
    exact rounds_saturate_le _ _

theorem origin_of_mem_atoms {r : RelaxedGrounding} (hr : ofProblem p = .ok r)
    (hgoal : ∀ c ∈ p.goal, c.isGround = true) {a : GroundAtom} (ha : a ∈ r.grounding.atoms) :
    a ∈ p.init ∨ (∃ c ∈ p.goal, c.groundAtom? = some a) ∨
      ∃ op args, p.IsInstance op args ∧ ∃ role negated, p.HasCondition op args role a negated := by
  obtain ⟨r', hr', _, hatoms, _⟩ := exists_ofProblem (exists_of_ofProblem hr).1 hgoal
  obtain rfl := Except.ok.inj (hr.symm.trans hr')
  rw [hatoms, List.mem_eraseDups, List.mem_append, List.mem_append, List.mem_filterMap,
    List.mem_flatMap, or_assoc] at ha
  refine ha.imp_right (.imp_right ?_)
  rintro ⟨c, hc, hm⟩
  obtain ⟨⟨_, negated⟩, hsigned, rfl⟩ := List.mem_map.mp hm
  refine ⟨_, _, isInstance_of_mem_candidatesOf (List.mem_filter.mp hc).1, ?_⟩
  rcases List.mem_append.mp hsigned with hm | hm
  · exact ⟨.precondition, negated, Problem.mem_signedAtoms_iff.mp hm⟩
  · exact ⟨.effect, negated, Problem.mem_signedAtoms_iff.mp hm⟩

/-- **The grounder computes the least fixpoint.** Let the operators be conjunctions of conditions
over their own parameters; the goal of a problem is always ground. Then the grounder succeeds, after
at most one round more than there are actions. Its actions are the derivable instances, in strict
order and thus once each. Its universe lists the initial atoms, the goal atoms and the atoms that
the actions mention, each where it occurs first. -/
theorem exists_ofProblem_derivable
    (hsimple : ∀ op schema, p.operator? op = some schema → schema.Simple)
    (hgoal : ∀ c ∈ p.goal, c.isGround = true) :
    ∃ r, ofProblem p = .ok r ∧ r.rounds ≤ r.grounding.actions.length + 1 ∧
      (r.grounding.actions.map Action.application).Pairwise Problem.Precedes ∧
      (∀ op args, (op, args) ∈ r.grounding.actions.map Action.application ↔ p.Derivable op args) ∧
      r.grounding.atoms = (p.init ++ p.goal.filterMap Condition.groundAtom? ++
        r.grounding.actions.flatMap fun a ↦ p.mentioned a.operator a.args).eraseDups := by
  obtain ⟨r, hr, hactions, hatoms, hrounds⟩ := exists_ofProblem hsimple hgoal
  obtain ⟨reached, hg⟩ := exists_isRelaxed hr
  have hlength : r.grounding.actions.length = (enteredOf p).length := by
    simpa using congrArg List.length hactions
  have hmentioned : (enteredOf p).flatMap (fun c ↦ p.mentioned c.operator.id c.args) =
      r.grounding.actions.flatMap fun a ↦ p.mentioned a.operator a.args := by
    have h := congrArg (List.flatMap fun x ↦ p.mentioned x.1 x.2) hactions
    rw [List.flatMap_map, List.flatMap_map] at h
    exact h.symm
  refine ⟨r, hr, hlength ▸ hrounds, hactions ▸ pairwise_enteredOf, fun op args ↦ ⟨?_, ?_⟩, ?_⟩
  · rw [hactions]
    intro h
    obtain ⟨c, hc, he⟩ := List.mem_map.mp h
    obtain ⟨rfl, rfl⟩ := Prod.mk.inj he
    obtain ⟨hm, hreach⟩ := List.mem_filter.mp hc
    exact derivable_of_isReachable derived_reachedOf hm hreach
  · intro h
    obtain ⟨a, ha, rfl, rfl⟩ := exists_mem_actions_of_derivable hg h
    exact List.mem_map_of_mem ha
  · rw [hatoms, hmentioned]

/-- The first room can be visited, and the second one cannot. -/
theorem derivable_rooms : rooms.Derivable ⟨0⟩ [⟨0⟩] ∧ ¬rooms.Derivable ⟨0⟩ [⟨1⟩] := by
  have hr : ofProblem rooms = .ok roomsRelaxed := Fallible.eq_ok_get _
  obtain ⟨r, hr', _, _, h, _⟩ :=
    exists_ofProblem_derivable (exists_of_ofProblem hr).1 (by decide)
  obtain rfl : roomsRelaxed = r := Except.ok.inj (hr.symm.trans hr')
  rw [← h, ← h]
  decide +kernel

end RelaxedGrounding

end LiftedPlanning
