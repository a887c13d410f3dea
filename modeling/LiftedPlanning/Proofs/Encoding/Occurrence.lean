import Mathlib.Tactic.Tauto
import LiftedPlanning.Proofs.Encoding.Rule

/-!
# Occurrences that fire

An occurrence fires in a block if the literals of its conjunction are true there. This is the bridge
between the lifted clauses and the ground actions. If an operator runs with arguments, each of its
conditions has an occurrence that fires, and every occurrence of the operator that fires stands for
the atom that the arguments give.
-/

namespace LiftedPlanning.Encoding

open Cnf (Assignment Clause Literal)
open Cnf.Assignment

variable {p : Problem} {g : Grounding} {l : Layout} {m : Assignment}

/-! ## Occurrences of rules -/

theorem occurrence_eq_ok_iff {r : Rule} {choice : List (ConstantId × Literal)} {o : Occurrence} :
    r.occurrence p g l choice = .ok o ↔
      ∃ a, (Binding.ofMapping r.mapping (choice.map (·.1))).ground? r.schema r.condition = some a ∧
        o = ⟨r, ⟨Binding.ofMapping r.mapping (choice.map (·.1)),
          l.active r.operator :: choice.map (·.2)⟩, g.atomId? a⟩ := by
  rw [Rule.occurrence]
  split
  · rename_i h
    simp [h]
  · rename_i a h
    simp [h, eq_comm]

/-- An occurrence of the encoding: a rule under a choice of eligible constants. -/
structure IsOccurrence (p : Problem) (g : Grounding) (l : Layout) (o : Occurrence) : Prop where
  rule : IsRule p l.eligibility o.rule
  choice : ∃ choice ∈ combinations (o.rule.mapping.slots.map (l.choices o.rule.operator)),
    o.rule.occurrence p g l choice = .ok o

theorem mem_occurrences_iff {rs : List Rule} {occurrences : List (List Occurrence)}
    (hrs : rules p l.eligibility = .ok rs)
    (hos : rs.mapM (Rule.occurrences p g l) = .ok occurrences) {o : Occurrence} :
    o ∈ occurrences.flatten ↔ IsOccurrence p g l o := by
  have hos := Fallible.mapM_eq_ok_iff.mp hos
  rw [List.mem_flatten]
  constructor
  · rintro ⟨os, hmem, ho⟩
    obtain ⟨r, hr, h⟩ := Fallible.exists_left hos hmem
    obtain ⟨choice, hc, h⟩ := Fallible.exists_left (Fallible.mapM_eq_ok_iff.mp h) ho
    have hrule : o.rule = r := by
      obtain ⟨_, _, rfl⟩ := occurrence_eq_ok_iff.mp h
      rfl
    subst hrule
    exact ⟨(mem_rules_iff hrs).mp hr, choice, hc, h⟩
  · rintro ⟨hr, choice, hc, h⟩
    obtain ⟨os, hmem, h'⟩ := Fallible.exists_right hos ((mem_rules_iff hrs).mpr hr)
    obtain ⟨o', ho', heq⟩ := Fallible.exists_right (Fallible.mapM_eq_ok_iff.mp h') hc
    obtain rfl : o = o' := Except.ok.inj (h.symm.trans heq)
    exact ⟨os, hmem, ho'⟩

theorem exists_occurrence {r : Rule} (hr : IsRule p l.eligibility r)
    {choice : List (ConstantId × Literal)}
    (hc : choice ∈ combinations (r.mapping.slots.map (l.choices r.operator))) :
    ∃ o, r.occurrence p g l choice = .ok o := by
  obtain ⟨a, ha⟩ : ∃ a, (Binding.ofMapping r.mapping (choice.map (·.1))).ground? r.schema
      r.condition = some a := by
    refine Binding.exists_ground? hr.scope hr.mapping ?_
    rw [List.length_map, length_of_mem_combinations hc, List.length_map]
  exact ⟨_, occurrence_eq_ok_iff.mpr ⟨a, ha, rfl⟩⟩

/-! ## Firing -/

/-- The literals of the conjunction are true. -/
def Occurrence.Fires (o : Occurrence) (m : Assignment) : Prop :=
  ∀ literal ∈ o.supporter.conjunction, m.satisfies literal = true

theorem exists_selected_choice {r : Rule} (hr : IsRule p l.eligibility r)
    (harity : l.eligibility.arity r.operator = r.schema.arity) {args : List ConstantId}
    (hruns : l.Runs m r.operator args) :
    ∃ choice ∈ combinations (r.mapping.slots.map (l.choices r.operator)),
      (∀ ch ∈ choice, m.satisfies ch.2 = true) ∧
        List.Forall₂ (fun slot k ↦ args[slot]? = some k) r.mapping.slots (choice.map (·.1)) := by
  have hslots : ∀ slot ∈ r.mapping.slots, ∃ choice : ConstantId × Literal,
      (choice ∈ l.choices r.operator slot ∧ m.satisfies choice.2 = true) ∧
        args[slot]? = some choice.1 := by
    intro slot hslot
    rw [hr.mapping] at hslot
    obtain ⟨c, hc, hsel⟩ := hruns.exists_argument (harity ▸ Mapping.slots_lt_arity hslot)
    obtain ⟨literal, hm, hs⟩ := hsel.exists_choice
    exact ⟨(c, literal), ⟨hm, hs⟩, hc⟩
  obtain ⟨choice, hchoice⟩ := Fallible.exists_forall₂ hslots
  refine ⟨choice, ?_, fun ch hch ↦ ?_, ?_⟩
  · exact mem_combinations.mpr
      (List.forall₂_map_right_iff.mpr (hchoice.flip.imp fun _ _ h ↦ h.1.1))
  · obtain ⟨slot, _, h, _⟩ := Fallible.exists_left hchoice hch
    exact h.2
  · exact List.forall₂_map_right_iff.mpr (hchoice.imp fun _ _ h ↦ h.2)

/-- **A running operator fires its conditions.** -/
theorem exists_fires {r : Rule} (hr : IsRule p l.eligibility r)
    (harity : l.eligibility.arity r.operator = r.schema.arity) {args : List ConstantId}
    (hruns : l.Runs m r.operator args) :
    ∃ o a, IsOccurrence p g l o ∧ o.rule = r ∧ o.Fires m ∧
      r.condition.groundWith (r.schema.argument? args) = some a ∧ o.atom = g.atomId? a := by
  obtain ⟨choice, hmem, hsat, hargs⟩ := exists_selected_choice hr harity hruns
  obtain ⟨a, ha⟩ := hr.scope.exists_groundWith (hruns.length.trans harity)
  have hground : (Binding.ofMapping r.mapping (choice.map (·.1))).ground? r.schema r.condition =
      some a := by
    rw [hr.mapping] at hargs ⊢
    rw [Binding.ground?_ofMapping hr.scope hargs, ha]
  obtain ⟨o, ho⟩ := exists_occurrence (g := g) hr hmem
  obtain ⟨b, hb, he⟩ := occurrence_eq_ok_iff.mp ho
  obtain rfl : b = a := Option.some.inj (hb.symm.trans hground)
  have hrule : o.rule = r := by rw [he]
  have hfires : o.Fires m := by
    rw [Occurrence.Fires, he, List.forall_mem_cons, List.forall_mem_map]
    exact ⟨hruns.active, hsat⟩
  refine ⟨o, b, ⟨?_, choice, ?_, ?_⟩, hrule, hfires, ha, by rw [he]⟩
  · rwa [hrule]
  · rwa [hrule]
  · rwa [hrule]

namespace IsOccurrence

variable {o : Occurrence} (ho : IsOccurrence p g l o)

include ho

theorem active_mem_conjunction : l.active o.rule.operator ∈ o.supporter.conjunction := by
  obtain ⟨_, choice, _, h⟩ := ho
  obtain ⟨_, _, he⟩ := occurrence_eq_ok_iff.mp h
  rw [he]
  exact List.mem_cons_self

theorem active_of_fires (hf : o.Fires m) : m.satisfies (l.active o.rule.operator) = true :=
  hf _ ho.active_mem_conjunction

theorem mem_conjunction {literal : Literal} (h : literal ∈ o.supporter.conjunction) :
    literal = l.active o.rule.operator ∨
      ∃ position, ∃ choice ∈ l.choices o.rule.operator position, literal = choice.2 := by
  obtain ⟨_, choice, hc, hok⟩ := ho
  obtain ⟨_, _, he⟩ := occurrence_eq_ok_iff.mp hok
  rw [he] at h
  refine (List.mem_cons.mp h).imp_right fun h ↦ ?_
  obtain ⟨ch, hch, rfl⟩ := List.mem_map.mp h
  obtain ⟨slot, _, hm⟩ := Fallible.exists_right
    (List.forall₂_map_right_iff.mp (mem_combinations.mp hc)) hch
  exact ⟨slot, ch, hm, rfl⟩

/-- **What fires stands for the atom of the arguments.** -/
theorem atom_of_fires (hf : o.Fires m) {args : List ConstantId}
    (hruns : l.Runs m o.rule.operator args) :
    ∃ a, o.rule.condition.groundWith (o.rule.schema.argument? args) = some a ∧
      o.atom = g.atomId? a := by
  obtain ⟨hr, choice, hc, hok⟩ := ho
  obtain ⟨a, ha, he⟩ := occurrence_eq_ok_iff.mp hok
  have hsat : ∀ ch ∈ choice, m.satisfies ch.2 = true := fun ch hch ↦ by
    refine hf _ ?_
    rw [he]
    exact List.mem_cons_of_mem _ (List.mem_map_of_mem hch)
  have hargs : List.Forall₂ (fun slot k ↦ args[slot]? = some k) o.rule.mapping.slots
      (choice.map (·.1)) := by
    have hchosen := List.forall₂_map_right_iff.mp (mem_combinations.mp hc)
    refine List.forall₂_map_right_iff.mpr (List.Forall₂.flip ?_)
    exact Fallible.forall₂_imp_left
      (fun ch hch _ hm ↦ hruns.getElem?_of_satisfies hm (hsat ch hch)) hchosen
  refine ⟨a, ?_, by rw [he]⟩
  rw [hr.mapping] at hargs ha
  rw [← Binding.ground?_ofMapping hr.scope hargs, ha]

end IsOccurrence

/-! ## Clauses of occurrences -/

/-- An implication from what fires gives its conclusion. -/
theorem Occurrence.Fires.satisfies_of_implies {o : Occurrence} (hf : o.Fires m)
    {conclusion : Literal} (h : m.satisfiesClause (o.implies conclusion) = true) :
    m.satisfies conclusion = true := by
  rw [Occurrence.implies, satisfiesClause_append] at h
  exact satisfiesClause_singleton.mp (h.resolve_left (not_satisfiesClause_negate hf))

/-- What fires is not forbidden. -/
theorem Occurrence.Fires.not_forbidden {o : Occurrence} (hf : o.Fires m) :
    ¬m.satisfiesClause o.forbids = true := by
  rw [Occurrence.Fires] at hf
  rw [Occurrence.forbids]
  split
  · simp [satisfiesClause]
  · rename_i active h
    rw [h, List.forall_mem_singleton] at hf
    rw [satisfiesClause_singleton]
    exact not_satisfies_negate hf
  · rename_i active selections _ h
    rw [h, List.forall_mem_cons] at hf
    exact not_satisfiesClause_negate hf.2

/-- Of decided literals, the implication says no more than that. -/
theorem satisfiesClause_implies_iff {o : Occurrence}
    (hd : ∀ literal ∈ o.supporter.conjunction, m.Decides literal) {conclusion : Literal} :
    m.satisfiesClause (o.implies conclusion) = true ↔
      (o.Fires m → m.satisfies conclusion = true) := by
  rw [Occurrence.implies, satisfiesClause_append, satisfiesClause_negate_iff hd,
    satisfiesClause_singleton, Occurrence.Fires]
  tauto

/-- Nor does the prohibition, where selected constants have an active operator. -/
theorem IsOccurrence.satisfiesClause_forbids {o : Occurrence} (ho : IsOccurrence p g l o)
    (hd : ∀ literal ∈ o.supporter.conjunction, m.Decides literal)
    (hactive : ∀ position, ∀ choice ∈ l.choices o.rule.operator position,
      m.satisfies choice.2 = true → m.satisfies (l.active o.rule.operator) = true)
    (hf : ¬o.Fires m) : m.satisfiesClause o.forbids = true := by
  obtain ⟨_, choice, hc, hok⟩ := ho
  obtain ⟨_, _, he⟩ := occurrence_eq_ok_iff.mp hok
  have hconj : o.supporter.conjunction = l.active o.rule.operator :: choice.map (·.2) := by
    rw [he]
  rw [Occurrence.Fires, hconj] at hf
  rw [hconj, List.forall_mem_cons] at hd
  rw [Occurrence.forbids, hconj]
  cases choice with
  | nil =>
    rw [List.map_nil, List.forall_mem_singleton] at hf
    exact satisfiesClause_singleton.mpr (hd.1.satisfies_negate_iff.mpr hf)
  | cons ch rest =>
    refine (satisfiesClause_negate_iff hd.2).mpr fun hs ↦ hf (List.forall_mem_cons.mpr ⟨?_, hs⟩)
    obtain ⟨slot, _, hm⟩ := Fallible.exists_right
      (List.forall₂_map_right_iff.mp (mem_combinations.mp hc)) (List.mem_cons_self (a := ch))
    exact hactive slot ch hm (hs _ (List.mem_map_of_mem List.mem_cons_self))

/-! ## The support index -/

theorem mem_record_iff {s : Support Supporter} {e e' : SupportEntry Supporter} :
    e' ∈ (s.record e).2.entries ↔ e' ∈ s.entries ∨ e' = e := by
  rw [Support.record]
  split
  · rename_i h
    exact ⟨.inl, fun h' ↦ h'.elim id (· ▸ h)⟩
  · rw [List.mem_append, List.mem_singleton]

theorem mem_entries_supportOf_iff {os : List Occurrence} {e : SupportEntry Supporter} :
    e ∈ (supportOf os).entries ↔ ∃ o ∈ os, o.entry? = some e := by
  have hfold : ∀ (es : List (SupportEntry Supporter)) (s : Support Supporter),
      e ∈ (es.foldl (fun s e ↦ (s.record e).2) s).entries ↔ e ∈ s.entries ∨ e ∈ es := by
    intro es
    induction es with
    | nil => simp
    | cons e' es ih =>
      intro s
      rw [List.foldl_cons, ih, mem_record_iff, List.mem_cons, or_assoc]
  rw [supportOf, hfold, List.mem_filterMap]
  simp [Support.empty]

theorem mem_supporters_iff {os : List Occurrence} {a : AtomId} {negated : Bool} {role : Role}
    {s : Supporter} :
    s ∈ (supportOf os).supporters a (!negated) role ↔ ∃ o ∈ os, o.atom = some a ∧
      o.rule.condition.negated = negated ∧ o.rule.role = role ∧ o.supporter = s := by
  simp only [Support.supporters, List.mem_map, List.mem_filter, mem_entries_supportOf_iff,
    Bool.and_eq_true, decide_eq_true_eq]
  constructor
  · rintro ⟨e, ⟨⟨o, ho, he⟩, ⟨rfl, hn⟩, rfl⟩, rfl⟩
    obtain ⟨a, ha, rfl⟩ := Option.map_eq_some_iff.mp he
    exact ⟨o, ho, ha, Bool.not_inj hn, rfl, rfl⟩
  · rintro ⟨o, ho, ha, rfl, rfl, rfl⟩
    exact ⟨_, ⟨⟨o, ho, by rw [Occurrence.entry?, ha]; rfl⟩, ⟨rfl, rfl⟩, rfl⟩, rfl⟩

end LiftedPlanning.Encoding
