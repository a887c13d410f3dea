import LiftedPlanning.Grounding.Relaxed
import LiftedPlanning.Proofs.Encoding.Support
import LiftedPlanning.Proofs.Plan.Execution
import LiftedPlanning.Proofs.Problem.History

/-!
# Partial and full substitutions

Constants are put for the parameters of a condition in three places. The grounder and the plan
checker have a constant for every parameter of the operator and take it by its position. The
encoding has constants for the parameters that the condition mentions and looks them up by the slots
of its mapping. The places agree: of the full arguments, only the constants at the slots matter.

Nothing smaller than a binding would do. The slots are those of the parameters that the condition
mentions, and the parameters of an operator are different, so every constant of a binding is an
argument of the atom, wherever the condition has its parameter.
-/

namespace LiftedPlanning

variable {p : Problem} {id : OperatorId} {op : Operator} {c : Condition} {atom : GroundAtom}
  {args ks ks' : List ConstantId} {a : Action} {role : Role}

/-! ## Full substitutions -/

/-- Full arguments give an atom to a condition: substituted by position, by the grounder, and, at
the place that the condition has among those of its operator, by the plan checker. -/
structure Condition.Becomes (p : Problem) (id : OperatorId) (op : Operator) (args : List ConstantId)
    (c : Condition) (atom : GroundAtom) : Prop where
  substituted : c.groundWith (op.argument? args) = some atom
  grounder : ∀ flat : FlatOperator, flat.schema = op → flat.atom? args c = some atom
  checker : ∀ a : Action, a.operator = id → a.args = args → ∀ role,
    (op.formula role).residual = none → (∀ d ∈ (op.formula role).flat, op.Scopes d) →
      ∃ conditions : List (GroundAtom × Bool), Plan.groundConditions p a role = .ok conditions ∧
        ∀ i : Nat, (op.formula role).flat[i]? = some c → conditions[i]? = some (atom, c.negated)

theorem Operator.Scopes.exists_becomes (hop : p.operator? id = some op) (hc : op.Scopes c)
    (hlen : args.length = op.arity) : ∃ atom, c.Becomes p id op args atom := by
  obtain ⟨atom, hatom⟩ := hc.exists_groundWith hlen
  refine ⟨atom, hatom, ?_, ?_⟩
  · rintro flat rfl
    exact hatom
  · rintro a rfl rfl role hres hscopes
    obtain ⟨conditions, hconditions⟩ :=
      Plan.exists_groundConditions (a := a) hop hres hscopes hlen
    obtain ⟨_, hall⟩ := (Plan.groundConditions_eq_ok_iff hop).mp hconditions
    refine ⟨conditions, hconditions, fun i hi ↦ ?_⟩
    -- the ground conditions stand where the conditions of the formula do
    obtain ⟨hlt, hget⟩ := List.getElem?_eq_some_iff.mp hi
    have hlt' : i < conditions.length := hall.length_eq ▸ hlt
    obtain ⟨hground, hnegated⟩ := hall.get hlt hlt'
    rw [List.get_eq_getElem, List.get_eq_getElem, hget] at hground hnegated
    rw [hatom] at hground
    rw [List.getElem?_eq_getElem hlt', Option.some.injEq]
    exact Prod.ext (Option.some.inj hground).symm hnegated.symm

/-! ## Bindings that ground alike -/

theorem Condition.eqOn_of_groundWith {binding binding' : VariableId → Option ConstantId}
    (h : c.groundWith binding = some atom) (h' : c.groundWith binding' = some atom) :
    ∀ v ∈ c.vars, binding v = binding' v := by
  obtain ⟨ks, hks, rfl⟩ := Option.map_eq_some_iff.mp h
  obtain ⟨ks', hks', heq⟩ := Option.map_eq_some_iff.mp h'
  obtain rfl : ks' = ks := congrArg GroundAtom.args heq
  exact fun v hv ↦ Fallible.eqOn_of_mapM hks hks' (.param v) (mem_vars_iff.mp hv)

theorem Problem.Consistent.nodup_parameters (hp : p.Consistent) (hop : p.operator? id = some op) :
    op.parameters.Nodup :=
  .of_map _ (hp.parameterNames id op hop)

theorem Operator.position?_eq_some_iff (hn : op.parameters.Nodup) {v : VariableId} {slot : Nat} :
    op.position? v = some slot ↔ op.parameters[slot]? = some v :=
  idxOf?_eq_some_iff_of_nodup hn

namespace Binding

variable {m : Mapping}

theorem mapM_constantAt? (hn : m.slots.Nodup) (hlen : m.slots.length = ks.length) :
    m.slots.mapM (ofMapping m ks).constantAt? = some ks := by
  have hzip : ∀ slots : List Nat, slots.Nodup → ∀ ks : List ConstantId,
      slots.length = ks.length →
        List.Forall₂ (fun slot k ↦ (slots.zip ks).lookup slot = some k) slots ks := by
    intro slots
    induction slots with
    | nil =>
      intro _ ks hlen
      rw [List.eq_nil_of_length_eq_zero hlen.symm]
      exact .nil
    | cons slot slots ih =>
      intro hn ks hlen
      obtain ⟨k, ks, rfl⟩ := List.exists_cons_of_length_eq_add_one hlen.symm
      obtain ⟨hslot, hn⟩ := List.nodup_cons.mp hn
      refine .cons List.lookup_cons_self (Fallible.forall₂_imp_left (fun s hs k' hk ↦ ?_)
        (ih hn ks (Nat.succ.inj hlen)))
      -- the first pair is passed over, as its slot does not come again
      have hne : s ≠ slot := fun h ↦ hslot (h ▸ hs)
      rwa [List.zip_cons_cons, List.lookup_cons, beq_false_of_ne hne]
  exact Fallible.mapM_eq_some_iff.mpr (hzip m.slots hn ks hlen)

/-- **The atom determines the binding.** -/
theorem eq_of_ground? (hn : op.parameters.Nodup)
    (hlen : (⟨id, Mapping.pairsOf op c⟩ : Mapping).slots.length = ks.length)
    (hlen' : (⟨id, Mapping.pairsOf op c⟩ : Mapping).slots.length = ks'.length)
    (h : (ofMapping ⟨id, Mapping.pairsOf op c⟩ ks).ground? op c = some atom)
    (h' : (ofMapping ⟨id, Mapping.pairsOf op c⟩ ks').ground? op c = some atom) : ks = ks' := by
  have hslots : (⟨id, Mapping.pairsOf op c⟩ : Mapping).slots.Nodup :=
    Mapping.pairwise_slots.imp Nat.ne_of_lt
  have hlookup : ∀ slot ∈ (⟨id, Mapping.pairsOf op c⟩ : Mapping).slots,
      (ofMapping ⟨id, Mapping.pairsOf op c⟩ ks).constantAt? slot =
        (ofMapping ⟨id, Mapping.pairsOf op c⟩ ks').constantAt? slot := by
    intro slot hslot
    -- the condition mentions the parameter of the slot, so the atom has its constant
    obtain ⟨v, hv, hm⟩ := Mapping.mem_slots_iff.mp hslot
    have heq := Condition.eqOn_of_groundWith h h' v hm
    rwa [(Operator.position?_eq_some_iff hn).mpr hv] at heq
  have hks := mapM_constantAt? hslots hlen
  rw [Fallible.mapM_congr hlookup, mapM_constantAt? hslots hlen'] at hks
  exact (Option.some.inj hks).symm

end Binding

/-! ## Mappings -/

/-- A mapping serves a condition of an operator. Its slots increase, and they are those of the
parameters that the condition mentions. Constants for the slots always ground the condition, and to
different atoms if they are different. Constants that are taken from full arguments ground it to the
atom that the full arguments give. -/
structure Mapping.Serves (p : Problem) (id : OperatorId) (op : Operator) (c : Condition)
    (m : Mapping) : Prop where
  increasing : m.slots.Pairwise (· < ·)
  mentioned : ∀ slot, slot ∈ m.slots ↔ ∃ v, op.parameters[slot]? = some v ∧ v ∈ c.vars
  grounds : ∀ ks b, Binding.ofMapping? m ks = some b → ∃ atom, b.ground? op c = some atom
  injective : ∀ ks ks' b b', Binding.ofMapping? m ks = some b → Binding.ofMapping? m ks' = some b' →
    b.ground? op c = b'.ground? op c → b = b'
  agrees : ∀ args : List ConstantId, args.length = op.arity → ∃ ks b atom,
    m.slots.mapM (args[·]?) = some ks ∧ Binding.ofMapping? m ks = some b ∧
      b.ground? op c = some atom ∧ c.Becomes p id op args atom

theorem Binding.ofMapping?_eq_some_iff {m : Mapping} {b : Binding} :
    ofMapping? m ks = some b ↔ m.slots.length = ks.length ∧ b = ofMapping m ks := by
  rw [ofMapping?, Mapping.size, Mapping.slots, List.length_map]
  split
  · rename_i h
    simp [h, eq_comm]
  · rename_i h
    simp [h]

/-- **Partial and full substitutions agree.** A condition over the parameters of an operator of a
problem has a mapping, and the mapping serves it. -/
theorem Mapping.exists_serves (hp : p.IsBuilt) (hop : p.operator? id = some op)
    (hc : ∀ v ∈ c.vars, v ∈ op.parameters) :
    ∃ m, ofCondition p id op c = .ok m ∧ m.Serves p id op c := by
  have hn := hp.consistent.nodup_parameters hop
  have hc := Operator.scopes_iff_subset.mpr hc
  refine ⟨_, ofCondition_eq_ok_iff.mpr ⟨hc, rfl⟩, pairwise_slots, fun slot ↦ mem_slots_iff,
    ?_, ?_, ?_⟩
  · rintro ks b hb
    obtain ⟨hlen, rfl⟩ := Binding.ofMapping?_eq_some_iff.mp hb
    exact Binding.exists_ground? hc rfl hlen.symm
  · rintro ks ks' b b' hb hb' heq
    obtain ⟨hlen, rfl⟩ := Binding.ofMapping?_eq_some_iff.mp hb
    obtain ⟨hlen', rfl⟩ := Binding.ofMapping?_eq_some_iff.mp hb'
    obtain ⟨atom, hatom⟩ := Binding.exists_ground? hc rfl hlen.symm
    rw [Binding.eq_of_ground? hn hlen hlen' hatom (heq ▸ hatom)]
  · intro args hlen
    obtain ⟨atom, hatom⟩ := hc.exists_becomes hop hlen
    obtain ⟨ks, hks⟩ := Fallible.exists_mapM_eq_some fun slot hslot ↦
      ⟨_, List.getElem?_eq_getElem (hlen ▸ slots_lt_arity hslot : slot < args.length)⟩
    have hall := Fallible.mapM_eq_some_iff.mp hks
    refine ⟨ks, _, atom, hks, Binding.ofMapping?_eq_some_iff.mpr ⟨hall.length_eq, rfl⟩, ?_, hatom⟩
    rw [Binding.ground?_ofMapping hc hall]
    exact hatom.substituted

/-- The harbour, with routes by way of two places and with charters. -/
def routedHarbour : Problem :=
  (Problem.harbour.after (.predicate "route" ["place", "place", "place", "place"])).after
    (.operator "charter" [("from", "place"), ("via", "place"), ("to", "dock")])

/-- A charter is barred by a route from its end by way of the dock and its start and back. The
condition mentions the last parameter first, and twice, and one parameter not at all. -/
def barredRoute : Condition :=
  .negative ⟨1⟩ [.param ⟨4⟩, .const ⟨0⟩, .param ⟨2⟩, .param ⟨4⟩]

theorem exists_serves_barredRoute :
    routedHarbour.IsBuilt ∧ ∃ op, routedHarbour.operator? ⟨1⟩ = some op ∧
      (∀ v ∈ barredRoute.vars, v ∈ op.parameters) ∧
        ∃ m, Mapping.ofCondition routedHarbour ⟨1⟩ op barredRoute = .ok m ∧
          m.pairs = [(2, 0), (0, 2)] ∧
          m.Serves routedHarbour ⟨1⟩ op barredRoute := by
  have hp : routedHarbour.IsBuilt :=
    (Problem.isBuilt_harbour.after (by decide +kernel)).after (by decide +kernel)
  obtain ⟨op, hop, hparameters⟩ : ∃ op, routedHarbour.operator? ⟨1⟩ = some op ∧
      op.parameters = [⟨2⟩, ⟨3⟩, ⟨4⟩] :=
    ⟨(routedHarbour.operator? ⟨1⟩).get (by decide +kernel), (Option.some_get _).symm,
      by decide +kernel⟩
  have hc : ∀ v ∈ barredRoute.vars, v ∈ op.parameters := by
    rw [hparameters]
    decide
  obtain ⟨m, hm, hserves⟩ := Mapping.exists_serves hp hop hc
  obtain ⟨_, rfl⟩ := Mapping.ofCondition_eq_ok_iff.mp hm
  refine ⟨hp, op, hop, hc, _, hm, ?_, hserves⟩
  rw [Mapping.pairsOf, hparameters]
  decide

end LiftedPlanning
