import LiftedPlanning.Proofs.Encoding.Occurrence
import LiftedPlanning.Proofs.Grounding.Relaxed
import LiftedPlanning.Proofs.Problem.WellFormed

/-!
# Handles that lead somewhere

The stages of the library look things up by the handles and places that they find in what earlier
stages have made. What a stage has made is closed if all these look-ups are answered. A well-formed
problem is closed, and so are the eligible sets, the grounding and the encoding that are computed
from it.
-/

namespace LiftedPlanning

variable {p : Problem} {g : Grounding} {l : Layout} {mode : EligibilityMode}

/-! ## Problems -/

/-- A type is defined, and so is every type that is met on the way up from it. -/
structure TypeHierarchy.Resolves (h : TypeHierarchy) (t : TypeId) : Prop where
  defined : (h.directSupertypes? t).isSome = true
  supertypes : ∀ s ∈ h.supertypes t, (h.directSupertypes? s).isSome = true

/-- The handles in a problem lead to elements of it: those of types to types with all their
supertypes, those of operators to their parameters, and those of conditions and atoms to predicates,
constants and parameters. -/
structure Problem.Closed (p : Problem) : Prop where
  constant : ∀ c type, p.constantType? c = some type → p.types.Resolves type
  predicate : ∀ predicate signature, p.signature? predicate = some signature →
    ∀ type ∈ signature, p.types.Resolves type
  parameter : ∀ v type, p.variableType? v = some type → p.types.Resolves type
  operator : ∀ op schema, p.operator? op = some schema →
    ∀ v ∈ schema.parameters, (p.variableType? v).isSome = true
  condition : ∀ op schema, p.operator? op = some schema →
    ∀ role, ∀ c ∈ (schema.formula role).conditions, p.declares c = true
  init : ∀ a ∈ p.init, p.declares a.toCondition = true
  goal : ∀ c ∈ p.goal, p.declares c = true

theorem TypeHierarchy.Descends.resolves {h : TypeHierarchy} (hd : h.Descends) {t : TypeId}
    (ht : t.index < h.size) : h.Resolves t where
  defined := Catalog.isSome_value? ht
  supertypes _ := isSome_directSupertypes? hd ht

theorem Problem.WellFormed.closed (h : p.WellFormed) : p.Closed where
  constant c type hc := h.links.resolves (h.constants c type hc)
  predicate predicate signature hq type ht :=
    h.links.resolves (h.predicates predicate signature hq type ht)
  parameter v type hv := by
    obtain ⟨entry, he, rfl⟩ := Option.map_eq_some_iff.mp hv
    exact h.links.resolves (h.parameters entry (List.mem_of_getElem? he))
  operator op schema hop _ := (h.operators op schema hop).isSome_variableType?
  condition op schema hop role c hc :=
    declares_of_checkCondition ((h.operators op schema hop).conditions role c hc)
  init a ha := declares_of_checkCondition (h.init a ha)
  goal c hc := declares_of_checkCondition (h.goal c hc).1

/-! ## Eligible sets -/

/-- Every parameter position of a declared operator has an eligible set, which holds constants of
the problem, and eligible arguments give a constant to every parameter. -/
structure Eligibility.Closed (p : Problem) (e : Eligibility) : Prop where
  position : ∀ op schema, p.operator? op = some schema → ∀ position < schema.arity,
    e.eligible? op position = some (e.eligible op position)
  constant : ∀ op schema, p.operator? op = some schema → ∀ position,
    ∀ c ∈ e.eligible op position, (p.constantType? c).isSome = true
  argument : ∀ op schema, p.operator? op = some schema → ∀ args ∈ combinations (e.setsOf op),
    ∀ v ∈ schema.parameters, (schema.argument? args v).isSome = true

theorem Problem.isSome_constantType?_of_mem {c : ConstantId} (h : c ∈ p.constantIds) :
    (p.constantType? c).isSome = true :=
  Catalog.isSome_value? (Handle.mem_first_iff.mp h)

/-- **Eligible sets are closed**, whatever their source. -/
theorem Encoding.closed_eligibility (p : Problem) (g : Grounding) (mode : EligibilityMode) :
    (eligibility p g mode).Closed p where
  position op schema hop position hpos := by
    have hlt : op.index < (eligibility p g mode).sets.length :=
      length_sets_eligibility ▸ Problem.index_lt_of_operator? hop
    have hsets : (eligibility p g mode).sets[op.index]? =
        some ((eligibility p g mode).setsOf op) := by
      rw [Eligibility.setsOf, List.getElem?_eq_getElem hlt, Option.getD_some]
    have hpos : position < ((eligibility p g mode).setsOf op).length :=
      Nat.lt_of_lt_of_eq hpos (arity_eligibility hop).symm
    rw [Eligibility.eligible?, hsets, Option.bind_some, Eligibility.eligible,
      List.getElem?_eq_getElem hpos, Option.getD_some]
  constant op schema hop position c hc := by
    refine Problem.isSome_constantType?_of_mem ?_
    cases mode with
    | lifted => exact Eligibility.mem_constantIds_of_mem_eligible_byType hop hc
    | grounded => exact ((Eligibility.mem_eligible_byReachability_iff hop).mp hc).2.1
  argument op schema hop args hargs v hv := by
    have hlen := (Eligibility.mem_combinations_setsOf_iff.mp hargs).1
    rw [arity_eligibility hop] at hlen
    exact Option.isSome_iff_exists.mpr
      (Operator.exists_argument? hlen (List.isSome_idxOf?.mpr hv))

/-! ## Groundings -/

/-- The actions of a grounding are of declared operators, and give a constant of the problem to each
of their parameters. -/
structure Grounding.Closed (p : Problem) (g : Grounding) : Prop where
  operator : ∀ a ∈ g.actions, ∃ schema, p.operator? a.operator = some schema ∧
    a.args.length = schema.arity
  argument : ∀ a ∈ g.actions, ∀ c ∈ a.args, (p.constantType? c).isSome = true

theorem RelaxedGrounding.IsRelaxed.closedGrounding {reached : Set GroundAtom}
    (h : IsRelaxed p g reached) : g.Closed p where
  operator a ha := by
    obtain ⟨schema, hop, hargs⟩ := h.candidate a ha
    have hlen := (Eligibility.mem_combinations_setsOf_iff.mp hargs).1
    exact ⟨schema, hop, by rw [hlen, Eligibility.arity_byType hop]⟩
  argument a ha c hc := by
    obtain ⟨schema, hop, hargs⟩ := h.candidate a ha
    exact Problem.isSome_constantType?_of_mem
      (Eligibility.mem_constantIds_of_mem_combinations_byType hop hargs c hc)

/-! ## Encodings -/

namespace Encoding

/-- An occurrence binds each slot of its mapping, its condition is ground with that, and after the
literal of the operator its conjunction has the literal of every bound constant, found at the place
of the constant in the eligible set of the slot. -/
structure Occurrence.Resolved (l : Layout) (o : Occurrence) : Prop where
  binding : ∃ constants, Binding.ofMapping? o.rule.mapping constants = some o.supporter.binding
  ground : (o.supporter.binding.ground? o.rule.schema o.rule.condition).isSome = true
  conjunction : ∃ selections,
    o.supporter.conjunction = l.active o.rule.operator :: selections ∧
      List.Forall₂ (fun pair literal ↦ ∃ set i,
        l.eligibility.eligible? o.rule.operator pair.1 = some set ∧ set.idxOf? pair.2 = some i ∧
          literal = l.selected o.rule.operator pair.1 i) o.supporter.binding.pairs selections

/-- The look-ups of an encoding: the layout has literals for exactly the declared operators, at all
the positions of each, and the occurrences of its rules find theirs. -/
structure Closed (p : Problem) (g : Grounding) (e : Encoding) : Prop where
  operators : e.layout.operatorCount = p.operators.size
  eligibility : e.layout.eligibility.Closed p
  occurrence : ∀ o, IsOccurrence p g e.layout o → o.Resolved e.layout

/-- What is chosen for each slot, as the pairs of a binding and the literals beside them. -/
theorem forall₂_zip_map {r : Nat × ConstantId → Literal → Prop}
    {choice : List (ConstantId × Literal)} {slots : List Nat}
    (h : List.Forall₂ (fun slot ch ↦ r (slot, ch.1) ch.2) slots choice) :
    List.Forall₂ r (slots.zip (choice.map (·.1))) (choice.map (·.2)) := by
  induction h with
  | nil => exact .nil
  | cons hr _ ih => exact .cons hr ih

theorem IsOccurrence.resolved {o : Occurrence} (ho : IsOccurrence p g (layoutOf p g mode) o) :
    o.Resolved (layoutOf p g mode) := by
  obtain ⟨hrule, choice, hchoice, hok⟩ := ho
  obtain ⟨a, ha, he⟩ := occurrence_eq_ok_iff.mp hok
  have hbinding : o.supporter.binding = Binding.ofMapping o.rule.mapping (choice.map (·.1)) := by
    rw [he]
  have hlen : o.rule.mapping.size = (choice.map (·.1)).length := by
    rw [List.length_map, length_of_mem_combinations hchoice, List.length_map, Mapping.slots,
      List.length_map, Mapping.size]
  have hslots : ∀ slot ∈ o.rule.mapping.slots, slot < o.rule.schema.arity := by
    rw [hrule.mapping]
    exact fun _ ↦ Mapping.slots_lt_arity
  have hchosen := (List.forall₂_map_right_iff.mp (mem_combinations.mp hchoice)).flip
  refine ⟨⟨choice.map (·.1), ?_⟩, ?_, choice.map (·.2), by rw [he], ?_⟩
  · rw [Binding.ofMapping?, if_pos hlen, hbinding]
  · rw [hbinding, ha]
    rfl
  · rw [hbinding]
    refine forall₂_zip_map (Fallible.forall₂_imp_left (fun slot hslot ch hch ↦ ?_) hchosen)
    replace hslot := hslots slot hslot
    obtain ⟨i, hi, hliteral⟩ := Layout.mem_choices_iff.mp hch
    -- no constant is eligible twice, so its place is the one of its literal
    have hposition := (closed_eligibility p g mode).position _ _ hrule.declared slot hslot
    exact ⟨_, i, hposition, (idxOf?_eq_some_iff_of_nodup (nodup_eligible slot)).mpr hi, hliteral⟩

theorem closed_of_layout {e : Encoding} (he : e.layout = layoutOf p g mode) : e.Closed p g where
  operators := by rw [he, operatorCount_layoutOf]
  eligibility := by
    rw [he]
    exact closed_eligibility p g mode
  occurrence o ho := by
    rw [he] at ho ⊢
    exact ho.resolved

end Encoding

end LiftedPlanning
