import LiftedPlanning.Proofs.Declaration.Acceptance

/-!
# The types of arguments

The check of a condition accepts a term if its type is related to the declared one, that is also if
it is a supertype. Such a condition admits more than the declared type: the operator binds the term
to any constant of the term's type. This is the only way in which an argument of the wrong type gets
into an atom. All atoms that the grounder knows are the initial atoms, the goal atoms, and what the
conditions of operators come to, so each has some condition that says what its arguments are.
-/

namespace LiftedPlanning

variable {p : Problem} {c : Condition} {a : GroundAtom} {k : ConstantId} {type : TypeId}

/-! ## Well-typed atoms -/

namespace Problem

/-- A constant was declared with a type or with one of its subtypes. -/
def HasType (p : Problem) (k : ConstantId) (type : TypeId) : Prop :=
  ∃ actual, p.constantType? k = some actual ∧ p.types.IsSubtype actual type

/-- An atom has an argument for each parameter of its predicate, and each argument is right for the
type declared at its position. -/
def Arranged (p : Problem) (right : Nat → ConstantId → TypeId → Prop) (a : GroundAtom) : Prop :=
  ∃ signature, p.signature? a.predicate = some signature ∧ a.args.length = signature.length ∧
    ∀ i k declared, a.args[i]? = some k → signature[i]? = some declared → right i k declared

/-- The arguments of an atom have the types declared for its predicate. -/
def WellTyped (p : Problem) (a : GroundAtom) : Prop :=
  p.Arranged (fun _ ↦ p.HasType) a

/-- At some position a condition has a term of a proper supertype of the type declared there. -/
def Widens (p : Problem) (c : Condition) (i : Nat) (type : TypeId) : Prop :=
  ∃ signature declared, p.signature? c.predicate = some signature ∧ signature[i]? = some declared ∧
    (c.args[i]?).bind p.termType? = some type ∧ declared ≠ type ∧ p.types.IsSubtype declared type

/-- An atom is an instance of a condition and is typed as the condition demands: an argument has the
declared type, or else the condition has a wider term at its position and the argument has the type
of that term. -/
def TypedBy (p : Problem) (c : Condition) (a : GroundAtom) : Prop :=
  (∃ binding, c.groundWith binding = some a) ∧ p.Arranged (fun i k declared ↦
    p.HasType k declared ∨ ∃ type, p.Widens c i type ∧ p.HasType k type) a

/-- The conditions of a problem: its initial atoms, its goal, and those of its operators. -/
def States (p : Problem) (c : Condition) : Prop :=
  (∃ a ∈ p.init, a.toCondition = c) ∨ c ∈ p.goal ∨
    ∃ op schema, p.operator? op = some schema ∧ ∃ role, c ∈ (schema.formula role).conditions

theorem TypedBy.wellTyped (h : p.TypedBy c a) (hc : ∀ i type, ¬p.Widens c i type) :
    p.WellTyped a := by
  obtain ⟨_, signature, hsignature, hlen, hargs⟩ := h
  refine ⟨signature, hsignature, hlen, fun i k declared hk hd ↦ ?_⟩
  exact (hargs i k declared hk hd).resolve_right fun ⟨type, hw, _⟩ ↦ hc i type hw

/-- One argument of a type that is not among the subtypes of the declared one is enough. -/
theorem not_wellTyped (hd : p.types.Descends) {signature : List TypeId} (i : Nat)
    {declared actual : TypeId} (hsignature : p.signature? a.predicate = some signature)
    (hk : a.args[i]? = some k) (hdeclared : signature[i]? = some declared)
    (hactual : p.constantType? k = some actual)
    (hn : p.types.isSupertype declared actual = false) : ¬p.WellTyped a := by
  rintro ⟨_, hsignature', _, hargs⟩
  obtain rfl := Option.some.inj (hsignature.symm.trans hsignature')
  obtain ⟨_, hactual', hsub⟩ := hargs i k declared hk hdeclared
  obtain rfl := Option.some.inj (hactual.symm.trans hactual')
  rw [(TypeHierarchy.isSupertype_iff hd).mpr hsub] at hn
  cases hn

/-- The first type has no proper supertype, so nothing is wider where that type is declared. -/
theorem not_widens_of_index_eq_zero (hd : p.types.Descends)
    (hfirst : ∀ entry ∈ p.predicates.entries, ∀ declared ∈ entry.2, declared.index = 0) (i : Nat) :
    ¬p.Widens c i type := by
  rintro ⟨signature, declared, hsignature, hdeclared, _, hne, hsub⟩
  obtain ⟨entry, he, rfl⟩ := Option.map_eq_some_iff.mp hsignature
  have hzero := hfirst entry (List.mem_of_getElem? he) declared (List.mem_of_getElem? hdeclared)
  have hle : type.index ≤ 0 := hzero ▸ hd.index_le hsub
  exact hne (Handle.index_injective (hzero.trans (Nat.le_zero.mp hle).symm))

/-! ## Ground conditions -/

theorem hasType_of_fits (hd : p.types.Descends) {v : VariableId} (h : p.fits v k = true) :
    ∃ type, p.variableType? v = some type ∧ p.HasType k type := by
  rw [fits] at h
  split at h
  · rename_i expected actual hv hk
    exact ⟨expected, hv, actual, hk, (TypeHierarchy.isSupertype_iff hd).mp h⟩
  · cases h

theorem hasType_of_argument? (hd : p.types.Descends) {schema : Operator} {args : List ConstantId}
    (hargs : List.Forall₂ (fun c v ↦ c ∈ p.constantIds ∧ p.fits v c = true) args schema.parameters)
    {v : VariableId} (hk : schema.argument? args v = some k) :
    ∃ type, p.variableType? v = some type ∧ p.HasType k type := by
  obtain ⟨slot, hslot, hbound⟩ := Option.bind_eq_some_iff.mp hk
  obtain ⟨hv, rfl⟩ := List.getElem?_eq_some_iff.mp (Operator.position?_eq_some hslot)
  obtain ⟨hi, rfl⟩ := List.getElem?_eq_some_iff.mp hbound
  exact hasType_of_fits hd ((List.forall₂_iff_get.mp hargs).2 slot hi hv).2

section Ground

variable {binding : VariableId → Option ConstantId} (hd : p.types.Descends)
  (hbinding : ∀ v k, binding v = some k → ∃ type, p.variableType? v = some type ∧ p.HasType k type)

include hbinding in
theorem hasType_of_bind? {t : Term} (htype : p.termType? t = some type)
    (hk : t.bind? binding = some k) : p.HasType k type := by
  cases t with
  | const k' => exact ⟨type, Option.some.inj hk ▸ htype, .refl⟩
  | param v =>
    obtain ⟨type', hv, h⟩ := hbinding v k hk
    exact Option.some.inj (hv.symm.trans htype) ▸ h

include hd hbinding

/-- **Types of ground conditions.** If the variables of a checked condition are bound to constants
of their types, its atom is typed as the condition demands. -/
theorem typedBy_of_groundWith (hc : p.checkCondition c = .ok ())
    (ha : c.groundWith binding = some a) : p.TypedBy c a := by
  obtain ⟨signature, hsignature, hsuits⟩ := checkCondition_eq_ok_iff.mp hc
  obtain ⟨ks, hks, rfl⟩ := Option.map_eq_some_iff.mp ha
  have hbound := Fallible.mapM_eq_some_iff.mp hks
  have hlen : ks.length = signature.length := hbound.length_eq.symm.trans hsuits.length_eq
  refine ⟨⟨binding, ha⟩, signature, hsignature, hlen, fun i k declared hk hdeclared ↦ ?_⟩
  obtain ⟨hi, rfl⟩ := List.getElem?_eq_some_iff.mp hk
  obtain ⟨hi', rfl⟩ := List.getElem?_eq_some_iff.mp hdeclared
  have hterm : i < c.args.length := hbound.length_eq ▸ hi
  obtain ⟨type, htype, hrelated⟩ := (List.forall₂_iff_get.mp hsuits).2 i hterm hi'
  obtain ⟨actual, hactual, hsub⟩ :=
    hasType_of_bind? hbinding htype ((List.forall₂_iff_get.mp hbound).2 i hterm hi)
  rcases (TypeHierarchy.related_iff hd).mp hrelated with hle | hge
  · exact .inl ⟨actual, hactual, hsub.trans hle⟩
  · by_cases heq : signature[i] = type
    · exact .inl ⟨actual, hactual, heq ▸ hsub⟩
    · refine .inr ⟨type, ⟨signature, _, hsignature, hdeclared, ?_, heq, hge⟩, actual, hactual, hsub⟩
      rw [List.getElem?_eq_getElem hterm]
      exact htype

end Ground

theorem typedBy_of_groundAtom? (hd : p.types.Descends) (hc : p.checkCondition c = .ok ())
    (ha : c.groundAtom? = some a) : p.TypedBy c a := by
  refine typedBy_of_groundWith hd ?_ hc ha
  exact nofun

end Problem

/-! ## Atoms of what was read -/

namespace Declaration

open Text

theorem sound_of_read {bytes : List UInt8} (hp : (read bytes).problem = .ok p) : Sound p :=
  ((readLines_meets sound_empty 1 (storedLines bytes)).of_ok hp).sound

theorem Sound.typedBy_init (hp : Sound p) (ha : a ∈ p.init) : p.TypedBy a.toCondition a :=
  Problem.typedBy_of_groundAtom? hp.wellFormed.links (hp.wellFormed.init a ha)
    (Condition.groundAtom?_toCondition a)

theorem Sound.typedBy_goal (hp : Sound p) (hc : c ∈ p.goal) (ha : c.groundAtom? = some a) :
    p.TypedBy c a :=
  Problem.typedBy_of_groundAtom? hp.wellFormed.links (hp.wellFormed.goal c hc).1 ha

theorem Sound.exists_typedBy_of_hasCondition (hp : Sound p) {op : OperatorId}
    {args : List ConstantId} (hinst : p.IsInstance op args) {role : Role} {negated : Bool}
    (hcond : p.HasCondition op args role a negated) : ∃ c, p.States c ∧ p.TypedBy c a := by
  obtain ⟨schema, hop, hargs⟩ := hinst
  obtain ⟨schema', hop', c, hflat, ha, _⟩ := hcond
  obtain rfl : schema = schema' := Option.some.inj (hop.symm.trans hop')
  have hc := Formula.mem_conditions_of_mem_flat hflat
  have hd := hp.wellFormed.links
  exact ⟨c, .inr (.inr ⟨op, schema, hop, role, hc⟩), Problem.typedBy_of_groundWith hd
    (fun _ _ ↦ Problem.hasType_of_argument? hd hargs)
    ((hp.wellFormed.operators op schema hop).conditions role c hc) ha⟩

theorem Sound.exists_typedBy (hp : Sound p) {r : RelaxedGrounding}
    (hr : RelaxedGrounding.ofProblem p = .ok r) (ha : a ∈ r.grounding.atoms) :
    ∃ c, p.States c ∧ p.TypedBy c a := by
  have hgoal : ∀ c ∈ p.goal, c.isGround = true := fun c hc ↦ (hp.wellFormed.goal c hc).2
  rcases RelaxedGrounding.origin_of_mem_atoms hr hgoal ha with
    hinit | ⟨c, hc, hground⟩ | ⟨op, args, hinst, role, negated, hcond⟩
  · exact ⟨a.toCondition, .inl ⟨a, hinit, rfl⟩, hp.typedBy_init hinit⟩
  · exact ⟨c, .inr (.inl hc), hp.typedBy_goal hc hground⟩
  · exact hp.exists_typedBy_of_hasCondition hinst hcond

/-- **Wrong types come from wider terms only.** In a problem that was read, all initial atoms, goal
atoms and atoms of the universe have as many arguments as their predicates have parameters. Each
argument has the type declared at its position, unless the condition that the atom comes from has a
term of a proper supertype there; the argument then has the type of that term. If no condition has
such a term, the atoms are all well typed. -/
theorem typedBy_of_read {bytes : List UInt8} (hp : (read bytes).problem = .ok p) :
    ((∀ a ∈ p.init, p.TypedBy a.toCondition a) ∧
      (∀ c ∈ p.goal, ∃ a, c.groundAtom? = some a ∧ p.TypedBy c a) ∧
      ∀ r, RelaxedGrounding.ofProblem p = .ok r →
        ∀ a ∈ r.grounding.atoms, ∃ c, p.States c ∧ p.TypedBy c a) ∧
    ((∀ c, p.States c → ∀ i type, ¬p.Widens c i type) →
      (∀ a ∈ p.init, p.WellTyped a) ∧
      (∀ c ∈ p.goal, ∃ a, c.groundAtom? = some a ∧ p.WellTyped a) ∧
      ∀ r, RelaxedGrounding.ofProblem p = .ok r → ∀ a ∈ r.grounding.atoms, p.WellTyped a) := by
  have hsound := sound_of_read hp
  have hgoal : ∀ c ∈ p.goal, ∃ a, c.groundAtom? = some a ∧ p.TypedBy c a := fun c hc ↦ by
    obtain ⟨a, ha⟩ := Condition.exists_groundAtom? (hsound.wellFormed.goal c hc).2
    exact ⟨a, ha, hsound.typedBy_goal hc ha⟩
  refine ⟨⟨fun a ↦ hsound.typedBy_init, hgoal, fun r hr a ↦ hsound.exists_typedBy hr⟩,
    fun hnarrow ↦ ⟨fun a ha ↦ ?_, fun c hc ↦ ?_, fun r hr a ha ↦ ?_⟩⟩
  · exact (hsound.typedBy_init ha).wellTyped (hnarrow _ (.inl ⟨a, ha, rfl⟩))
  · obtain ⟨a, ha, htyped⟩ := hgoal c hc
    exact ⟨a, ha, htyped.wellTyped (hnarrow c (.inr (.inl hc)))⟩
  · obtain ⟨c, hc, htyped⟩ := hsound.exists_typedBy hr ha
    exact htyped.wellTyped (hnarrow c hc)

def ferryRelaxed : RelaxedGrounding :=
  (RelaxedGrounding.ofProblem ferry).toOption.get (by decide +kernel)

/-- Nothing is wider than a location at the ferry, so all the atoms of its universe are well typed.
-/
theorem wellTyped_ferry : RelaxedGrounding.ofProblem ferry = .ok ferryRelaxed ∧
    ∀ a ∈ ferryRelaxed.grounding.atoms, ferry.WellTyped a := by
  have hp : (read (stored ferryLines)).problem = .ok ferry := Fallible.eq_ok_get _
  have hr : RelaxedGrounding.ofProblem ferry = .ok ferryRelaxed := Fallible.eq_ok_get _
  have hd := (sound_of_read hp).wellFormed.links
  have hnarrow : ∀ c, ferry.States c → ∀ i type, ¬ferry.Widens c i type := fun _ _ i _ ↦
    Problem.not_widens_of_index_eq_zero hd (by decide +kernel) i
  exact ⟨hr, ((typedBy_of_read hp).2 hnarrow).2.2 ferryRelaxed hr⟩

/-- A dock whose only predicate is about locations, and an operator that takes any object. -/
def dockLines : List String :=
  ["type(object).", "type(loc, object).", "type(box, object).", "const(a, object).",
    "const(b, box).", "pred(at, loc).", "init(at(a)).", "goal(at(a)).", "op(put, ?x:object).",
    "eff(put, at(?x))."]

def dock : Problem :=
  (read (stored dockLines)).problem.toOption.get (by decide +kernel)

def dockRelaxed : RelaxedGrounding :=
  (RelaxedGrounding.ofProblem dock).toOption.get (by decide +kernel)

/-- The dock is read and is valid. Its initial atom, which is also its goal, is about an object that
is no location, and the universe has an atom about a box. -/
theorem not_wellTyped_dock : (read (stored dockLines)).problem = .ok dock ∧
    dock.validate = .ok () ∧ (∃ a ∈ dock.init, ¬dock.WellTyped a) ∧
    (∃ c ∈ dock.goal, ∃ a, c.groundAtom? = some a ∧ ¬dock.WellTyped a) ∧
    RelaxedGrounding.ofProblem dock = .ok dockRelaxed ∧
      ∃ a ∈ dockRelaxed.grounding.atoms, a ∉ dock.init ∧ ¬dock.WellTyped a := by
  have hp : (read (stored dockLines)).problem = .ok dock := Fallible.eq_ok_get _
  have hsound := sound_of_read hp
  have hd := hsound.wellFormed.links
  obtain ⟨hat, ha, hb, hobject, hbox⟩ : dock.signature? ⟨0⟩ = some [⟨1⟩] ∧
      dock.constantType? ⟨0⟩ = some ⟨0⟩ ∧ dock.constantType? ⟨1⟩ = some ⟨2⟩ ∧
      dock.types.isSupertype ⟨1⟩ ⟨0⟩ = false ∧ dock.types.isSupertype ⟨1⟩ ⟨2⟩ = false := by
    decide +kernel
  obtain ⟨hinit, hgoal, hfound⟩ : dock.init = [⟨⟨0⟩, [⟨0⟩]⟩] ∧
      dock.goal = [.positive ⟨0⟩ [.const ⟨0⟩]] ∧
      ⟨⟨0⟩, [⟨1⟩]⟩ ∈ dockRelaxed.grounding.atoms := by
    decide +kernel
  have hwrong : ¬dock.WellTyped ⟨⟨0⟩, [⟨0⟩]⟩ :=
    Problem.not_wellTyped hd 0 hat rfl rfl ha hobject
  have hwrong' : ¬dock.WellTyped ⟨⟨0⟩, [⟨1⟩]⟩ :=
    Problem.not_wellTyped hd 0 hat rfl rfl hb hbox
  rw [hinit, hgoal]
  refine ⟨hp, hsound.wellFormed.validate_eq_ok_iff.mpr hsound.scopes,
    ⟨_, List.mem_singleton_self _, hwrong⟩, ⟨_, List.mem_singleton_self _, _, rfl, hwrong⟩,
    Fallible.eq_ok_get _, _, hfound, ?_, hwrong'⟩
  decide

end Declaration

end LiftedPlanning
