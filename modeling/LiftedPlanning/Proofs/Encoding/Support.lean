import LiftedPlanning.Proofs.Encoding.Simulation
import LiftedPlanning.Proofs.Handles

/-!
# What the support index holds

The support index is filled while the clauses of conditions are made. In the end it holds, for an
atom, a sign and a role, the bindings under which a condition of an operator that can be selected
stands for the atom, each once however many conditions it comes from. For every entry there is the
clause that says that the binding gives the atom its sign, now or in the next step. So the frame and
interference clauses, which only look at the index, look at all the conditions there are and at
nothing else.

A binding determines its conjunction, since no constant is eligible twice at a position. This is why
entries that differ at all differ in their bindings.
-/

namespace LiftedPlanning

open Cnf (Literal)

/-! ## Slots and bindings -/

theorem Mapping.pairwise_slots {id : OperatorId} {op : Operator} {c : Condition} :
    (⟨id, pairsOf op c⟩ : Mapping).slots.Pairwise (· < ·) := by
  have hslots : op.parameters.zipIdx.Pairwise fun x y ↦ x.2 < y.2 := by
    rw [← List.pairwise_map, List.zipIdx_map_snd]
    exact List.pairwise_lt_range'
  rw [slots, pairsOf, List.map_filterMap, List.pairwise_filterMap]
  refine hslots.imp fun {x y} hlt s hs t ht ↦ ?_
  rw [Option.map_map, Option.map_eq_some_iff] at hs ht
  obtain ⟨_, _, rfl⟩ := hs
  obtain ⟨_, _, rfl⟩ := ht
  exact hlt

namespace Binding

variable {m : Mapping} {constants : List ConstantId} {b : Binding}

theorem slots_ofMapping (h : constants.length = m.slots.length) :
    (ofMapping m constants).slots = m.slots :=
  List.map_fst_zip h.ge

theorem ofMapping_constants (hop : b.operator = m.operator) (hslots : b.slots = m.slots) :
    ofMapping m b.constants = b := by
  obtain ⟨op, pairs⟩ := b
  obtain rfl : op = m.operator := hop
  rw [ofMapping, ← hslots]
  exact congrArg _ (List.zip_of_prod rfl rfl).symm

/-- A binding grounds a condition of its operator to an atom: it gives eligible constants to the
parameters that the condition mentions and to no others, in order of declaration, and with these
constants the condition is about the atom. -/
structure Grounds (e : Eligibility) (schema : Operator) (c : Condition) (atom : GroundAtom)
    (b : Binding) : Prop where
  increasing : b.slots.Pairwise (· < ·)
  mentioned : ∀ slot, slot ∈ b.slots ↔ ∃ v, schema.parameters[slot]? = some v ∧ v ∈ c.vars
  eligible : ∀ pair ∈ b.pairs, pair.2 ∈ e.eligible b.operator pair.1
  ground : b.ground? schema c = some atom

theorem Grounds.slots_eq {e : Eligibility} {schema : Operator} {c : Condition} {atom : GroundAtom}
    (h : b.Grounds e schema c atom) {id : OperatorId} :
    b.slots = (⟨id, Mapping.pairsOf schema c⟩ : Mapping).slots :=
  h.increasing.eq_of_mem_iff Mapping.pairwise_slots fun slot ↦
    (h.mentioned slot).trans Mapping.mem_slots_iff.symm

end Binding

/-- The literals of an operator and of the constants of a binding, each at its place among the
eligible constants. -/
def Layout.conjunctionOf (l : Layout) (b : Binding) : List Literal :=
  l.active b.operator :: b.pairs.map fun pair ↦
    l.selected b.operator pair.1 ((l.eligibility.eligible b.operator pair.1).idxOf pair.2)

namespace Support

variable {α : Type} [DecidableEq α] {s : Support α}

/-! ## Records -/

theorem nodup_record (h : s.entries.Nodup) (entry : SupportEntry α) :
    (s.record entry).2.entries.Nodup := by
  rw [record]
  split
  · exact h
  · rename_i hn
    exact List.nodup_append.mpr ⟨h, List.nodup_singleton entry,
      fun _ hmem _ hentry heq ↦ hn (List.mem_singleton.mp hentry ▸ heq ▸ hmem)⟩

theorem nodup_foldl_record (h : s.entries.Nodup) (entries : List (SupportEntry α)) :
    (entries.foldl (fun s e ↦ (s.record e).2) s).entries.Nodup := by
  induction entries generalizing s with
  | nil => exact h
  | cons entry entries ih => exact ih (nodup_record h entry)

omit [DecidableEq α] in
theorem mem_supportedAtoms_iff {a : AtomId} {positive : Bool} {role : Role} :
    a ∈ s.supportedAtoms positive role ↔ s.supporters a positive role ≠ [] := by
  simp only [supportedAtoms, supporters, List.mem_map, List.mem_mergeSort, List.mem_eraseDups,
    List.mem_filter, Bool.and_eq_true, decide_eq_true_eq, ne_eq, List.map_eq_nil_iff,
    List.filter_eq_nil_iff, not_forall, not_not]
  constructor
  · rintro ⟨_, ⟨entry, ⟨hentry, hpositive, hrole⟩, rfl⟩, rfl⟩
    exact ⟨entry, hentry, ⟨rfl, hpositive⟩, hrole⟩
  · rintro ⟨entry, hentry, ⟨rfl, hpositive⟩, hrole⟩
    exact ⟨_, ⟨entry, ⟨hentry, hpositive, hrole⟩, rfl⟩, rfl⟩

omit [DecidableEq α] in
theorem pairwise_supportedAtoms (positive : Bool) (role : Role) :
    (s.supportedAtoms positive role).Pairwise fun a b ↦ a.index < b.index := by
  rw [supportedAtoms, List.pairwise_map]
  have hle := @List.pairwise_mergeSort Nat (fun i j ↦ decide (i ≤ j))
    (fun i j k hij hjk ↦ by simp_all; omega) (fun i j ↦ by simp; omega)
    ((s.entries.filter fun e ↦ e.positive = positive && e.role = role).map
      (·.atom.index)).eraseDups
  have hne := (List.mergeSort_perm _ fun i j : Nat ↦ decide (i ≤ j)).nodup_iff.mpr
    (nodup_eraseDups ((s.entries.filter fun e ↦ e.positive = positive && e.role = role).map
      (·.atom.index)))
  exact (hle.and hne).imp fun h ↦ lt_of_le_of_ne (of_decide_eq_true h.1) h.2

omit [DecidableEq α] in
/-- The supported atoms are the atoms of a universe that have supporters. -/
theorem supportedAtoms_eq {n : Nat} (h : ∀ e ∈ s.entries, e.atom.index < n) (positive : Bool)
    (role : Role) :
    s.supportedAtoms positive role =
      (Handle.first n).filter fun a ↦ !(s.supporters a positive role).isEmpty := by
  refine List.map_injective_iff.mpr Handle.index_injective ?_
  have hfirst : (Handle.first n : List AtomId).Pairwise fun a b ↦ a.index < b.index :=
    List.pairwise_map.mpr List.pairwise_lt_range
  refine (List.pairwise_map.mpr (s.pairwise_supportedAtoms positive role)).eq_of_mem_iff
    (List.pairwise_map.mpr (hfirst.filter _)) fun i ↦ ?_
  simp only [List.mem_map, List.mem_filter, mem_supportedAtoms_iff, Handle.mem_first_iff]
  refine exists_congr fun a ↦ and_congr_left fun _ ↦ ?_
  rw [Bool.not_eq_true', List.isEmpty_eq_false_iff]
  refine ⟨fun ha ↦ ⟨?_, ha⟩, And.right⟩
  obtain ⟨_, hmem⟩ := List.exists_mem_of_ne_nil _ ha
  obtain ⟨e, he, rfl⟩ := List.mem_map.mp hmem
  obtain ⟨he, hatom⟩ := List.mem_filter.mp he
  simp only [Bool.and_eq_true, decide_eq_true_eq] at hatom
  exact hatom.1.1 ▸ h e he

end Support

namespace Encoding

variable {p : Problem} {g : Grounding} {strategy : Strategy} {mode : EligibilityMode}
  {e : Encoding} {os : List Occurrence} {a : AtomId} {positive : Bool} {role : Role}

/-! ## Occurrences and bindings -/

/-- A binding supports a sign of an atom in a role: its operator has a constant to choose for every
parameter, and the binding grounds one of its conditions, with the sign and the role, to the atom.
-/
def IsSupport (p : Problem) (e : Eligibility) (role : Role) (positive : Bool) (atom : GroundAtom)
    (b : Binding) : Prop :=
  ∃ schema c, p.operator? b.operator = some schema ∧ (∀ set ∈ e.setsOf b.operator, set ≠ []) ∧
    c ∈ (schema.formula role).flat ∧ c.negated = !positive ∧ b.Grounds e schema c atom

namespace IsOccurrence

variable {o : Occurrence}

theorem grounds {l : Layout} (ho : IsOccurrence p g l o) (ha : o.atom = some a) :
    ∃ atom, g.atomId? atom = some a ∧
      o.supporter.binding.Grounds l.eligibility o.rule.schema o.rule.condition atom := by
  have hop := operator_binding ho
  obtain ⟨hr, choice, hc, hok⟩ := ho
  obtain ⟨atom, hground, he⟩ := occurrence_eq_ok_iff.mp hok
  have hbinding : o.supporter.binding = Binding.ofMapping o.rule.mapping (choice.map (·.1)) := by
    rw [he]
  have hslots : o.supporter.binding.slots = o.rule.mapping.slots := by
    rw [hbinding, Binding.slots_ofMapping]
    rw [List.length_map, length_of_mem_combinations hc, List.length_map]
  have hchosen := (List.forall₂_map_right_iff.mp (mem_combinations.mp hc)).flip
  refine ⟨atom, ?_, ?_, fun slot ↦ ?_, fun pair hpair ↦ ?_, hbinding ▸ hground⟩
  · rw [← ha, he]
  · rw [hslots, hr.mapping]
    exact Mapping.pairwise_slots
  · rw [hslots, hr.mapping]
    exact Mapping.mem_slots_iff
  · have heligible := forall₂_zip_map
      (r := fun pair _ ↦ pair.2 ∈ l.eligibility.eligible o.rule.operator pair.1)
      (hchosen.imp fun _ _ ↦ Layout.fst_mem_eligible)
    rw [hbinding] at hpair
    obtain ⟨_, _, h⟩ := Fallible.exists_right heligible hpair
    rwa [hop]

theorem conjunction_eq (ho : IsOccurrence p g (layoutOf p g mode) o) :
    o.supporter.conjunction = (layoutOf p g mode).conjunctionOf o.supporter.binding := by
  obtain ⟨selections, hconj, hselections⟩ := ho.resolved.conjunction
  rw [hconj, Layout.conjunctionOf, operator_binding ho]
  refine congrArg _ (List.forall₂_eq_eq_eq ▸ List.forall₂_map_right_iff.mpr ?_)
  refine hselections.flip.imp fun literal pair ⟨set, i, hset, hi, hliteral⟩ ↦ ?_
  rw [hliteral, Eligibility.eligible_of_eligible? hset, List.idxOf_eq_getD_idxOf?, hi]
  rfl

end IsOccurrence

theorem Covers.exists_occurrence_iff (hg : g.IsBuilt) (hos : Covers p g (layoutOf p g mode) os)
    {b : Binding} :
    (∃ o ∈ os, o.atom = some a ∧ o.rule.condition.negated = !positive ∧ o.rule.role = role ∧
      o.supporter.binding = b) ↔
    ∃ atom, g.atoms[a.index]? = some atom ∧
      IsSupport p (layoutOf p g mode).eligibility role positive atom b := by
  constructor
  · rintro ⟨o, ho, ha, hsign, rfl, rfl⟩
    have ho := (hos.mem_iff o).mp ho
    obtain ⟨atom, hatom, hground⟩ := ho.grounds ha
    refine ⟨atom, Grounding.getElem?_of_atomId? hatom, o.rule.schema, o.rule.condition, ?_, ?_,
      ho.rule.condition, hsign, hground⟩
    · rw [operator_binding ho, ho.rule.declared]
    · rw [operator_binding ho]
      exact Eligibility.isSelectable_iff.mp ho.rule.selectable
  · rintro ⟨atom, hatom, schema, c, hop, hsets, hc, hsign, hground⟩
    have hsel := Eligibility.isSelectable_iff.mpr hsets
    have hr : IsRule p (layoutOf p g mode).eligibility (ruleOf b.operator schema role c) :=
      ⟨hop, hsel, hc, (hos.simple _ schema hop hsel role).2 c hc, rfl⟩
    have hslots : b.slots = (ruleOf b.operator schema role c).mapping.slots := hground.slots_eq
    -- the choice of the binding, with the literals of its constants
    let choice := b.pairs.map fun pair ↦ (pair.2, (layoutOf p g mode).selected b.operator pair.1
      (((layoutOf p g mode).eligibility.eligible b.operator pair.1).idxOf pair.2))
    have hbinding : Binding.ofMapping (ruleOf b.operator schema role c).mapping
        (choice.map (·.1)) = b := by
      rw [List.map_map]
      exact Binding.ofMapping_constants rfl hslots
    have hchoice : choice ∈ combinations ((ruleOf b.operator schema role c).mapping.slots.map
        ((layoutOf p g mode).choices b.operator)) := by
      rw [← hslots, mem_combinations, Binding.slots, List.map_map]
      refine List.forall₂_map_left_iff.mpr (List.forall₂_map_right_iff.mpr
        (List.forall₂_same.mpr fun pair hpair ↦ ?_))
      exact Layout.mem_choices_iff.mpr ⟨_, List.getElem?_idxOf (hground.eligible pair hpair), rfl⟩
    obtain ⟨o, hok⟩ := exists_occurrence (g := g) hr hchoice
    obtain ⟨atom', hatom', he⟩ := occurrence_eq_ok_iff.mp hok
    rw [hbinding] at hatom' he
    obtain rfl : atom = atom' := Option.some.inj (hground.ground.symm.trans hatom')
    have hrule : o.rule = ruleOf b.operator schema role c := by rw [he]
    have ho : o ∈ os := by
      refine (hos.mem_iff o).mpr ⟨?_, choice, ?_, ?_⟩ <;> rwa [hrule]
    refine ⟨o, ho, ?_, ?_, ?_, by rw [he]⟩
    · rw [he]
      exact Grounding.atomId?_of_getElem? hg.distinctAtoms hatom
    · rwa [hrule]
    · rw [hrule]
      rfl

/-! ## The index of an encoding -/

/-- The support index of an encoding holds the supporting bindings, each once and with its
conjunction, and it goes with the clauses of an encoding. -/
structure IsExact (p : Problem) (g : Grounding) (e : Encoding) : Prop where
  /-- No binding is listed twice. -/
  nodup : ∀ a positive role, ((e.support.supporters a positive role).map (·.binding)).Nodup
  /-- The bindings of an atom are those that support it. -/
  mem_iff : ∀ a positive role b, b ∈ (e.support.supporters a positive role).map (·.binding) ↔
    ∃ atom, g.atoms[a.index]? = some atom ∧
      IsSupport p e.layout.eligibility role positive atom b
  /-- An atom is supported if it has supporters, and then it is in the universe. -/
  supported : ∀ a positive role, (a ∈ e.support.supportedAtoms positive role ↔
    e.support.supporters a positive role ≠ []) ∧
      (a ∈ e.support.supportedAtoms positive role → a.index < g.atoms.length)
  conjunction : ∀ a positive role, ∀ s ∈ e.support.supporters a positive role,
    s.conjunction = e.layout.conjunctionOf s.binding
  /-- A precondition has the clause that it implies the atom of the same step. -/
  precondition : ∀ a positive, ∀ s ∈ e.support.supporters a positive .precondition,
    s.conjunction.map Literal.negate ++ [e.layout.signed a (!positive)] ∈ e.formula.universal
  /-- An effect has the clause that it implies the atom of the next step. -/
  effect : ∀ a positive, ∀ s ∈ e.support.supporters a positive .effect,
    s.conjunction.map Literal.negate ++
      [(e.layout.signed a (!positive)).shift e.formula.stepSize] ∈ e.formula.transition

theorem exists_isEncoding_support (he : ofProblem p g strategy = .ok e) :
    ∃ os, IsEncoding p g strategy e os ∧ e.support = supportOf os := by
  obtain ⟨goal, rs, oss, hgoal, hrs, hoss, rfl⟩ := ofProblem_eq_ok_iff.mp he
  exact ⟨oss.flatten, isEncoding_assemble hgoal hrs hoss, rfl⟩

/-- The supporters of a sign come from the occurrences of conditions with this sign. -/
theorem mem_supporters_supportOf_iff {s : Supporter} :
    s ∈ (supportOf os).supporters a positive role ↔ ∃ o ∈ os, o.atom = some a ∧
      o.rule.condition.negated = (!positive) ∧ o.rule.role = role ∧ o.supporter = s := by
  rw [← mem_supporters_iff, Bool.not_not]

section Index

variable (hos : Covers p g (layoutOf p g mode) os)

include hos

theorem Covers.conjunction_of_mem_supporters {s : Supporter}
    (hs : s ∈ (supportOf os).supporters a positive role) :
    s.conjunction = (layoutOf p g mode).conjunctionOf s.binding := by
  obtain ⟨o, ho, _, _, _, rfl⟩ := mem_supporters_supportOf_iff.mp hs
  exact ((hos.mem_iff o).mp ho).conjunction_eq

theorem Covers.nodup_bindings :
    (((supportOf os).supporters a positive role).map (·.binding)).Nodup := by
  have hentries : (supportOf os).entries.Nodup := Support.nodup_foldl_record List.nodup_nil _
  have hsupporters : ((supportOf os).supporters a positive role).Nodup := by
    refine (hentries.filter _).map_on fun x hx y hy hxy ↦ ?_
    simp only [List.mem_filter, Bool.and_eq_true, decide_eq_true_eq] at hx hy
    obtain ⟨_, ⟨hatom, hsign⟩, hrole⟩ := hx
    obtain ⟨_, ⟨hatom', hsign'⟩, hrole'⟩ := hy
    cases x
    cases y
    simp_all
  refine hsupporters.map_on fun s hs t ht hst ↦ ?_
  have hconj : s.conjunction = t.conjunction := by
    rw [hos.conjunction_of_mem_supporters hs, hos.conjunction_of_mem_supporters ht, hst]
  cases s
  cases t
  simp_all

end Index

theorem IsEncoding.mem_clauses (he : IsEncoding p g strategy e os) {o : Occurrence} (ho : o ∈ os)
    (ha : o.atom = some a) :
    (o.rule.role = .precondition →
      o.implies (e.layout.signed a o.rule.condition.negated) ∈ e.formula.universal) ∧
    (o.rule.role = .effect →
      o.implies ((e.layout.signed a o.rule.condition.negated).shift e.formula.stepSize) ∈
        e.formula.transition) := by
  constructor
  · intro hrole
    rw [he.universal, universalClauses.eq_def]
    refine List.mem_append_left _ (List.mem_append_right _ (List.mem_filterMap.mpr ⟨o, ho, ?_⟩))
    rw [Occurrence.universalClause?, Occurrence.preconditionClause?, hrole, ha]
    rfl
  · intro hrole
    rw [he.transition, transitionClauses, he.stepSize]
    refine List.mem_append_left _ (List.mem_filterMap.mpr ⟨o, ho, ?_⟩)
    rw [Occurrence.effectClause?, hrole, ha]
    rfl

/-- **The support index is exact.** Whenever a problem is encoded, for whatever grounding and
strategy, the index holds for each atom, sign and role the bindings that support it and no others,
and the encoding has the clause of every entry. -/
theorem isExact_of_ofProblem (hg : g.IsBuilt) (he : ofProblem p g strategy = .ok e) :
    IsExact p g e := by
  obtain ⟨os, hos, hsupport⟩ := exists_isEncoding_support he
  have hmem : ∀ a positive role b, b ∈ (e.support.supporters a positive role).map (·.binding) ↔
      ∃ atom, g.atoms[a.index]? = some atom ∧
        IsSupport p e.layout.eligibility role positive atom b := by
    intro a positive role b
    rw [hos.layout, ← hos.covers.exists_occurrence_iff hg, hsupport, List.mem_map]
    simp only [mem_supporters_supportOf_iff]
    constructor
    · rintro ⟨s, ⟨o, ho, ha, hsign, hrole, rfl⟩, hb⟩
      exact ⟨o, ho, ha, hsign, hrole, hb⟩
    · rintro ⟨o, ho, ha, hsign, hrole, hb⟩
      exact ⟨_, ⟨o, ho, ha, hsign, hrole, rfl⟩, hb⟩
  refine ⟨fun a positive role ↦ ?_, hmem, fun a positive role ↦
    ⟨Support.mem_supportedAtoms_iff, fun h ↦ ?_⟩, fun a positive role s hs ↦ ?_,
    fun a positive s hs ↦ ?_, fun a positive s hs ↦ ?_⟩
  · rw [hsupport]
    exact hos.covers.nodup_bindings
  · obtain ⟨s, hs⟩ := List.exists_mem_of_ne_nil _ (Support.mem_supportedAtoms_iff.mp h)
    obtain ⟨_, hatom, _⟩ := (hmem a positive role s.binding).mp (List.mem_map_of_mem hs)
    exact (List.getElem?_eq_some_iff.mp hatom).1
  · rw [hsupport] at hs
    rw [hos.layout]
    exact hos.covers.conjunction_of_mem_supporters hs
  · rw [hsupport] at hs
    obtain ⟨o, ho, ha, hsign, hrole, rfl⟩ := mem_supporters_supportOf_iff.mp hs
    rw [← hsign]
    exact (hos.mem_clauses ho ha).1 hrole
  · rw [hsupport] at hs
    obtain ⟨o, ho, ha, hsign, hrole, rfl⟩ := mem_supporters_supportOf_iff.mp hs
    rw [← hsign]
    exact (hos.mem_clauses ho ha).2 hrole

/-- That the first door is closed is needed to open it and to ring at it. -/
theorem isExact_doors :
    doorsRelaxed.grounding.IsBuilt ∧
      ofProblem doors doorsRelaxed.grounding ⟨.parallel, .lifted⟩ = .ok doorsRelaxedParallel ∧
      (doorsRelaxedParallel.support.supporters ⟨1⟩ false .precondition).map (·.binding) =
        [⟨⟨0⟩, [(0, ⟨0⟩)]⟩, ⟨⟨1⟩, [(0, ⟨0⟩)]⟩] ∧
      IsSupport doors doorsRelaxedParallel.layout.eligibility .precondition false ⟨⟨0⟩, [⟨0⟩]⟩
        ⟨⟨1⟩, [(0, ⟨0⟩)]⟩ ∧
      (∀ a ∈ doorsRelaxedParallel.support.supportedAtoms true .effect, a.index < 4) := by
  have hr : RelaxedGrounding.ofProblem doors = .ok doorsRelaxed := Fallible.eq_ok_get _
  have hg := RelaxedGrounding.isBuilt_of_ofProblem hr
  have he : ofProblem doors doorsRelaxed.grounding ⟨.parallel, .lifted⟩ =
      .ok doorsRelaxedParallel := Fallible.eq_ok_get _
  have hexact := isExact_of_ofProblem hg he
  have hbindings : (doorsRelaxedParallel.support.supporters ⟨1⟩ false .precondition).map
      (·.binding) = [⟨⟨0⟩, [(0, ⟨0⟩)]⟩, ⟨⟨1⟩, [(0, ⟨0⟩)]⟩] := by decide +kernel
  obtain ⟨atom, hatom, hsupport⟩ :=
    (hexact.mem_iff ⟨1⟩ false .precondition ⟨⟨1⟩, [(0, ⟨0⟩)]⟩).mp (by rw [hbindings]; decide)
  have hopened : doorsRelaxed.grounding.atoms[1]? = some ⟨⟨0⟩, [⟨0⟩]⟩ := by decide +kernel
  obtain rfl : ⟨⟨0⟩, [⟨0⟩]⟩ = atom := Option.some.inj (hopened.symm.trans hatom)
  have hcount : doorsRelaxed.grounding.atoms.length = 4 := by decide +kernel
  exact ⟨hg, he, hbindings, hsupport, fun a ha ↦ hcount ▸ (hexact.supported a _ _).2 ha⟩

end Encoding

end LiftedPlanning
