import LiftedPlanning.Proofs.Declaration.Edits
import LiftedPlanning.Proofs.Declaration.Typing
import LiftedPlanning.Proofs.Eligibility.Search
import LiftedPlanning.Proofs.Grounding.Derivation
import LiftedPlanning.Proofs.Grounding.History
import LiftedPlanning.Proofs.Handles

/-!
# Where eligible sets come from

By type, the set of a position is what a scan over all constants keeps. By reachability it is
gathered: each action enters its arguments at their positions, and in the end each set is put in
order. Either way the sets are strictly increasing, which is what a search by halving relies on.
The relaxed grounder only tries arguments from the sets by type, so what its actions bind is there
too.
-/

namespace LiftedPlanning

variable {p : Problem} {g : Grounding} {op : OperatorId} {schema : Operator}

/-! ## Gathering -/

namespace Eligibility

/-- Enters a constant at the end of the set of a position, if there is such a position. -/
def pushAt? (sets : List (List ConstantId)) (position : Nat) (c : ConstantId) :
    Option (List (List ConstantId)) :=
  if position < sets.length then some (sets.modify position (· ++ [c])) else none

/-- Enters the arguments of an action, each in the set of its position. -/
def pushArguments? (sets : List (List ConstantId)) (args : List ConstantId) :
    Option (List (List ConstantId)) :=
  args.zipIdx.foldlM (fun sets (c, position) ↦ pushAt? sets position c) sets

/-- Enters an action with its operator. -/
def pushAction? (table : List (List (List ConstantId))) (a : Action) :
    Option (List (List (List ConstantId))) := do
  let sets ← table[a.operator.index]?
  let sets ← pushArguments? sets a.args
  return table.set a.operator.index sets

/-- Gathers what the actions of a grounding bind, then puts each set in order. There is no result if
an action has a foreign operator or too many arguments. -/
def gathered? (p : Problem) (g : Grounding) : Option Eligibility := do
  let table ← g.actions.foldlM pushAction?
    (p.operators.values.map fun op ↦ List.replicate op.arity [])
  return ⟨table.map (List.map Handle.ascending)⟩

theorem pushAt?_map_range {n position : Nat} (h : position < n) (f : Nat → List ConstantId)
    (c : ConstantId) : pushAt? ((List.range n).map f) position c =
      some ((List.range n).map fun i ↦ if i = position then f i ++ [c] else f i) := by
  rw [pushAt?, if_pos (by simpa using h), Option.some.injEq]
  refine List.ext_getElem (by simp) fun i _ _ ↦ ?_
  by_cases hi : position = i <;> simp [hi, eq_comm]

theorem pushArguments?_map_range {n : Nat} {args : List ConstantId} (h : args.length ≤ n)
    (f : Nat → List ConstantId) : pushArguments? ((List.range n).map f) args =
      some ((List.range n).map fun i ↦ f i ++ (args[i]?).toList) := by
  induction args using List.reverseRecOn with
  | nil => simp [pushArguments?]
  | append_singleton args c ih =>
    rw [List.length_append, List.length_singleton] at h
    rw [pushArguments?, List.zipIdx_append, List.foldlM_append, ← pushArguments?,
      ih (Nat.le_of_succ_le h), Option.bind_eq_bind, Option.bind_some]
    simp only [List.zipIdx_singleton, List.foldlM_cons, List.foldlM_nil, Nat.zero_add]
    rw [pushAt?_map_range h, Option.bind_eq_bind, Option.bind_some, Option.pure_def,
      Option.some.injEq]
    refine List.map_congr_left fun i _ ↦ ?_
    rcases Nat.lt_trichotomy i args.length with hi | rfl | hi
    · rw [if_neg (Nat.ne_of_lt hi), List.getElem?_append_left hi]
    · simp
    · rw [if_neg (Nat.ne_of_gt hi), List.getElem?_eq_none (Nat.le_of_lt hi),
        List.getElem?_eq_none (by simpa using Nat.succ_le_of_lt hi)]

/-- What actions bind at a position of an operator, in the order of the actions. -/
def boundAt (actions : List Action) (op : OperatorId) (position : Nat) : List ConstantId :=
  (actions.filter fun a ↦ a.operator = op).filterMap (·.args[position]?)

/-- What actions bind at all the positions of all the operators. -/
def bindings (p : Problem) (actions : List Action) : List (List (List ConstantId)) :=
  p.namedOperators.map fun (id, _, op) ↦ (List.range op.arity).map (boundAt actions id)

theorem getElem?_bindings (actions : List Action) (i : Nat) :
    (bindings p actions)[i]? = (p.operators.entries[i]?).map fun entry ↦
      (List.range entry.2.arity).map (boundAt actions ⟨i⟩) := by
  simp [bindings, Problem.namedOperators, Function.comp_def]

theorem length_bindings (actions : List Action) :
    (bindings p actions).length = p.operators.size := by
  simp [bindings, Problem.namedOperators, Catalog.size]

theorem boundAt_concat_of_eq {actions : List Action} {a : Action} {position : Nat} :
    boundAt (actions ++ [a]) a.operator position =
      boundAt actions a.operator position ++ (a.args[position]?).toList := by
  rw [boundAt, List.filter_append, List.filterMap_append]
  cases h : a.args[position]? <;> simp [boundAt, h]

theorem boundAt_concat_of_ne {actions : List Action} {a : Action} (h : a.operator ≠ op) :
    boundAt (actions ++ [a]) op = boundAt actions op := by
  funext position
  simp [boundAt, List.filter_append, h]

theorem pushAction?_bindings {actions : List Action} {a : Action}
    (hop : p.operator? a.operator = some schema) (hlen : a.args.length = schema.arity) :
    pushAction? (bindings p actions) a = some (bindings p (actions ++ [a])) := by
  obtain ⟨⟨name, _⟩, he, rfl⟩ := Option.map_eq_some_iff.mp hop
  rw [pushAction?, getElem?_bindings, he, Option.map_some, Option.bind_eq_bind, Option.bind_some,
    pushArguments?_map_range hlen.le]
  refine congrArg some (List.ext_getElem? fun i ↦ ?_)
  rw [List.getElem?_set, getElem?_bindings, getElem?_bindings]
  by_cases hi : a.operator.index = i
  · subst hi
    have hlt : a.operator.index < (bindings p actions).length := by
      rw [length_bindings]
      exact Problem.index_lt_of_operator? hop
    rw [if_pos rfl, if_pos hlt, he, Option.map_some, Option.some.injEq]
    exact List.map_congr_left fun i _ ↦ boundAt_concat_of_eq.symm
  · have hne : a.operator ≠ ⟨i⟩ := fun h ↦ hi (congrArg Handle.index h)
    rw [if_neg hi, boundAt_concat_of_ne hne]

theorem foldlM_pushAction?_bindings {actions more : List Action}
    (h : ∀ a ∈ more, ∃ schema, p.operator? a.operator = some schema ∧
      a.args.length = schema.arity) :
    more.foldlM pushAction? (bindings p actions) = some (bindings p (actions ++ more)) := by
  induction more generalizing actions with
  | nil => simp
  | cons a more ih =>
    obtain ⟨⟨schema, hop, hlen⟩, hmore⟩ := List.forall_mem_cons.mp h
    rw [List.foldlM_cons, pushAction?_bindings hop hlen, Option.bind_eq_bind, Option.bind_some,
      ih hmore, List.append_assoc, List.singleton_append]

theorem bindings_nil :
    bindings p [] = p.operators.values.map fun op ↦ List.replicate op.arity [] := by
  have hnone : ∀ op, boundAt [] op = fun _ ↦ [] := fun _ ↦ rfl
  refine List.ext_getElem? fun i ↦ ?_
  simp [getElem?_bindings, Catalog.values, hnone, Function.comp_def, List.map_const']

/-! ## The constants of a position -/

theorem mem_boundAt_iff {actions : List Action} {position : Nat} {c : ConstantId} :
    c ∈ boundAt actions op position ↔
      ∃ a ∈ actions, a.operator = op ∧ a.args[position]? = some c := by
  simp [boundAt, and_assoc]

end Eligibility

theorem Problem.increasing_constantIds (p : Problem) : Handle.Increasing p.constantIds :=
  RelaxedGrounding.pairwise_constantIds

/-- At a position of an operator stands a parameter of the type of a constant, or of a supertype. -/
def Problem.Admits (p : Problem) (op : OperatorId) (position : Nat) (c : ConstantId) : Prop :=
  ∃ schema v type, p.operator? op = some schema ∧ schema.parameters[position]? = some v ∧
    p.variableType? v = some type ∧ p.HasType c type

theorem Problem.fits_iff (hd : p.types.Descends) {v : VariableId} {c : ConstantId} :
    p.fits v c = true ↔ ∃ type, p.variableType? v = some type ∧ p.HasType c type := by
  refine ⟨hasType_of_fits hd, ?_⟩
  rintro ⟨type, hv, actual, hc, hsub⟩
  rw [fits, hv, hc]
  exact (TypeHierarchy.isSupertype_iff hd).mpr hsub

theorem Problem.HasType.mem_constantIds {c : ConstantId} {type : TypeId} (h : p.HasType c type) :
    c ∈ p.constantIds := by
  obtain ⟨actual, hc, _⟩ := h
  exact Handle.mem_first_iff.mpr (Catalog.index_lt_of_value? hc)

namespace Grounding

/-- At a position of an operator, some action has a constant. -/
def Binds (g : Grounding) (op : OperatorId) (position : Nat) (c : ConstantId) : Prop :=
  ∃ a ∈ g.actions, a.operator = op ∧ a.args[position]? = some c

theorem IsOver.mem_constantIds (h : g.IsOver p) {position : Nat} {c : ConstantId}
    (hc : g.Binds op position c) : c ∈ p.constantIds := by
  obtain ⟨a, ha, _, hposition⟩ := hc
  exact Handle.mem_first_iff.mpr ((h.isNamed a ha).args c (List.mem_of_getElem? hposition))

end Grounding

namespace Eligibility

/-- **Gathering.** What the actions of a grounding bind, gathered and put in order, are the sets by
reachability. -/
theorem gathered?_eq_some (h : g.IsOver p) : gathered? p g = some (byReachability p g) := by
  rw [gathered?, ← bindings_nil, foldlM_pushAction?_bindings h.exists_operator?]
  refine congrArg some (congrArg Eligibility.mk ?_)
  rw [List.nil_append, bindings, List.map_map]
  refine List.map_congr_left fun ⟨id, _, schema⟩ _ ↦ ?_
  simp only [Function.comp_apply, List.map_map]
  refine List.map_congr_left fun position _ ↦ ?_
  refine (Handle.increasing_ascending _).eq_of_mem_iff (p.increasing_constantIds.filter _)
    fun c ↦ ?_
  rw [Handle.mem_ascending_iff, mem_boundAt_iff]
  simpa using fun a ha ho hc ↦ h.mem_constantIds ⟨a, ha, ho, hc⟩

/-! ## Indexes -/

/-- The sets list what is to be listed: there is one for each position of each declared operator. It
has the right constants, in strictly increasing order. A constant is found at its place in the set,
also by halving. -/
structure Lists (p : Problem) (e : Eligibility)
    (listed : OperatorId → Nat → ConstantId → Prop) : Prop where
  exists_set : ∀ op schema, p.operator? op = some schema → ∀ position < schema.arity,
    ∃ set, e.eligible? op position = some set ∧ Handle.Increasing set ∧
      (∀ c, c ∈ set ↔ listed op position c) ∧
      ∀ c, e.place? op position c = Handle.search? set c ∧
        ∀ i, e.place? op position c = some i ↔ set[i]? = some c

/-- It is enough that the sets are increasing and have the right members. -/
theorem lists_of_increasing {e : Eligibility} {listed : OperatorId → Nat → ConstantId → Prop}
    (h : ∀ op schema, p.operator? op = some schema → ∀ position < schema.arity,
      ∃ set, e.eligible? op position = some set ∧ Handle.Increasing set ∧
        ∀ c, c ∈ set ↔ listed op position c) : Lists p e listed where
  exists_set op schema hop position hlt := by
    obtain ⟨set, hset, hinc, hmem⟩ := h op schema hop position hlt
    have hplace : ∀ c i, e.place? op position c = some i ↔ set[i]? = some c := fun c i ↦ by
      rw [place?, eligible_of_eligible? hset, idxOf?_eq_some_iff_of_nodup hinc.nodup]
    refine ⟨set, hset, hinc, hmem, fun c ↦ ⟨Option.ext fun i ↦ ?_, hplace c⟩⟩
    rw [hplace, hinc.search?_eq_some_iff]

theorem eligible_byType {v : VariableId} {position : Nat} (hop : p.operator? op = some schema)
    (hv : schema.parameters[position]? = some v) :
    (byType p).eligible op position = p.constantIds.filter (p.fits v) := by
  rw [eligible, setsOf_byType hop, List.getElem?_map, hv]
  rfl

theorem increasing_eligible_byReachability (hop : p.operator? op = some schema) {position : Nat}
    (hlt : position < schema.arity) :
    Handle.Increasing ((byReachability p g).eligible op position) := by
  rw [eligible, setsOf_byReachability hop, List.getElem?_map, List.getElem?_range hlt]
  exact p.increasing_constantIds.filter _

theorem lists_byType (hd : p.types.Descends) : Lists p (byType p) p.Admits := by
  refine lists_of_increasing fun op schema hop position hlt ↦ ?_
  have hv : schema.parameters[position]? = some schema.parameters[position] :=
    List.getElem?_eq_getElem hlt
  refine ⟨_, (Encoding.closed_eligibility p .empty .lifted).position op schema hop position hlt, ?_⟩
  rw [Encoding.eligibility, eligible_byType hop hv]
  refine ⟨p.increasing_constantIds.filter _, fun c ↦ ?_⟩
  rw [List.mem_filter, Problem.fits_iff hd]
  constructor
  · rintro ⟨_, type, htype, hc⟩
    exact ⟨schema, _, type, hop, hv, htype, hc⟩
  · rintro ⟨schema', v', type, hop', hv', htype, hc⟩
    obtain rfl := Option.some.inj (hop.symm.trans hop')
    obtain rfl := Option.some.inj (hv.symm.trans hv')
    exact ⟨hc.mem_constantIds, type, htype, hc⟩

theorem lists_byReachability (hg : g.IsOver p) : Lists p (byReachability p g) g.Binds := by
  refine lists_of_increasing fun op schema hop position hlt ↦ ?_
  refine ⟨_, (Encoding.closed_eligibility p g .grounded).position op schema hop position hlt,
    increasing_eligible_byReachability hop hlt, fun c ↦ ?_⟩
  rw [Encoding.eligibility, mem_eligible_byReachability_iff hop]
  exact ⟨fun h ↦ h.2.2, fun h ↦ ⟨hlt, hg.mem_constantIds h, h⟩⟩

/-! ## Sets of relaxed groundings -/

theorem mem_eligible_byType {r : RelaxedGrounding} (hr : RelaxedGrounding.ofProblem p = .ok r)
    (hop : p.operator? op = some schema) {position : Nat} {c : ConstantId}
    (hc : c ∈ (byReachability p r.grounding).eligible op position) :
    c ∈ (byType p).eligible op position := by
  obtain ⟨reached, hg⟩ := RelaxedGrounding.exists_isRelaxed hr
  obtain ⟨_, _, a, ha, rfl, hposition⟩ := (mem_eligible_byReachability_iff hop).mp hc
  obtain ⟨_, _, hargs⟩ := hg.candidate a ha
  exact (mem_combinations_setsOf_iff.mp hargs).2 position c hposition

/-- An action has an argument at every position, so it leaves no set of its operator empty. -/
theorem eligible_byReachability_empty_or (hg : g.IsOver p) (hop : p.operator? op = some schema) :
    (∀ position < schema.arity, (byReachability p g).eligible op position = []) ∨
      ∀ position < schema.arity, (byReachability p g).eligible op position ≠ [] := by
  by_cases h : ∃ a ∈ g.actions, a.operator = op
  · obtain ⟨a, ha, rfl⟩ := h
    obtain ⟨schema', hop', hlen⟩ := hg.exists_operator? a ha
    obtain rfl := Option.some.inj (hop.symm.trans hop')
    refine .inr fun position hlt ↦ List.ne_nil_of_mem (a := a.args[position]) ?_
    have hbinds : g.Binds a.operator position a.args[position] :=
      ⟨a, ha, rfl, List.getElem?_eq_getElem (hlen ▸ hlt)⟩
    exact (mem_eligible_byReachability_iff hop).mpr ⟨hlt, hg.mem_constantIds hbinds, hbinds⟩
  · refine .inl fun position _ ↦ List.eq_nil_iff_forall_not_mem.mpr fun c hc ↦ h ?_
    obtain ⟨_, _, a, ha, ho, _⟩ := (mem_eligible_byReachability_iff hop).mp hc
    exact ⟨a, ha, ho⟩

/-- **Eligible sets are sorted and correctly projected.** In every problem, the set of a position by
type lists the constants whose type is that of the parameter or a transitive subtype. The sets that
are gathered from a grounding over the problem list what its actions bind. If the grounding is a
relaxed one, these are among the sets by type, and either all the sets of an operator are empty or
none is. -/
theorem lists_of_isBuilt (hp : p.IsBuilt) :
    Lists p (byType p) p.Admits ∧
    (∀ g : Grounding, g.IsOver p →
      gathered? p g = some (byReachability p g) ∧ Lists p (byReachability p g) g.Binds) ∧
    ∀ r, RelaxedGrounding.ofProblem p = .ok r → r.grounding.IsOver p ∧
      ∀ op schema, p.operator? op = some schema →
        (∀ position, (byReachability p r.grounding).eligible op position ⊆
          (byType p).eligible op position) ∧
        ((∀ position < schema.arity, (byReachability p r.grounding).eligible op position = []) ∨
          ∀ position < schema.arity, (byReachability p r.grounding).eligible op position ≠ []) := by
  refine ⟨lists_byType hp.consistent.links,
    fun g hg ↦ ⟨gathered?_eq_some hg, lists_byReachability hg⟩, fun r hr ↦ ?_⟩
  have hover := RelaxedGrounding.isOver_of_ofProblem hr
  exact ⟨hover, fun op schema hop ↦ ⟨fun position c ↦ mem_eligible_byType hr hop,
    eligible_byReachability_empty_or hover hop⟩⟩

end Eligibility

namespace Declaration

/-- Trucks that drive from any location to a city, as lines of a text. -/
def cityLines : List String :=
  ["type(object).", "type(loc, object).", "type(city, loc).", "type(truck, object).",
    "type(empty).", "const(a, loc).", "const(b, city).", "const(t, truck).",
    "pred(at, object, loc).", "op(drive, ?t:truck, ?from:loc, ?to:city).",
    "pre(drive, at(?t, ?from)).", "op(nothing, ?e:empty).", "init(at(t, a)).", "goal(at(t, b))."]

def city : Problem :=
  (read (stored cityLines)).problem.toOption.get (by decide +kernel)

def cityRelaxed : RelaxedGrounding :=
  (RelaxedGrounding.ofProblem city).toOption.get (by decide +kernel)

/-- By type a truck can start at both locations, but the only action starts at the first one. There
is nothing to choose from for the other operator. -/
theorem lists_city : city.IsBuilt ∧ RelaxedGrounding.ofProblem city = .ok cityRelaxed ∧
    (∀ c, c ∈ [⟨0⟩, ⟨1⟩] ↔ city.Admits ⟨0⟩ 1 c) ∧
    (Eligibility.byType city).place? ⟨0⟩ 1 ⟨1⟩ = some 1 ∧
    Eligibility.gathered? city cityRelaxed.grounding =
      some (Eligibility.byReachability city cityRelaxed.grounding) ∧
    (∀ c, c ∈ [⟨0⟩] ↔ cityRelaxed.grounding.Binds ⟨0⟩ 1 c) ∧
    ∀ c, ¬cityRelaxed.grounding.Binds ⟨1⟩ 0 c := by
  have hp : (read (stored cityLines)).problem = .ok city := Fallible.eq_ok_get _
  have hr : RelaxedGrounding.ofProblem city = .ok cityRelaxed := Fallible.eq_ok_get _
  have hbuilt := (invariants_of_enters (readLines_enters sound_empty hp)).1
  obtain ⟨htype, hgrounded, hrelaxed⟩ := Eligibility.lists_of_isBuilt hbuilt
  obtain ⟨hgathered, hreach⟩ := hgrounded cityRelaxed.grounding (hrelaxed cityRelaxed hr).1
  obtain ⟨harity, harity', hboth, hfirst, hempty⟩ :
      (city.operator? ⟨0⟩).map Operator.arity = some 3 ∧
      (city.operator? ⟨1⟩).map Operator.arity = some 1 ∧
      (Eligibility.byType city).eligible? ⟨0⟩ 1 = some [⟨0⟩, ⟨1⟩] ∧
      (Eligibility.byReachability city cityRelaxed.grounding).eligible? ⟨0⟩ 1 = some [⟨0⟩] ∧
      (Eligibility.byReachability city cityRelaxed.grounding).eligible? ⟨1⟩ 0 = some [] := by
    decide +kernel
  obtain ⟨drive, hdrive, hthree⟩ := Option.map_eq_some_iff.mp harity
  obtain ⟨nothing, hnothing, hone⟩ := Option.map_eq_some_iff.mp harity'
  obtain ⟨_, hset, _, hadmits, hplace⟩ := htype.exists_set ⟨0⟩ drive hdrive 1 (by omega)
  obtain ⟨_, hset', _, hbinds, _⟩ := hreach.exists_set ⟨0⟩ drive hdrive 1 (by omega)
  obtain ⟨_, hset'', _, hnone, _⟩ := hreach.exists_set ⟨1⟩ nothing hnothing 0 (by omega)
  obtain rfl := Option.some.inj (hset.symm.trans hboth)
  obtain rfl := Option.some.inj (hset'.symm.trans hfirst)
  obtain rfl := Option.some.inj (hset''.symm.trans hempty)
  exact ⟨hbuilt, hr, hadmits, ((hplace ⟨1⟩).2 1).mpr rfl, hgathered, hbinds,
    fun c hc ↦ List.not_mem_nil ((hnone c).mpr hc)⟩

end Declaration

end LiftedPlanning
