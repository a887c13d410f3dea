import LiftedPlanning.Proofs.Encoding.Range
import LiftedPlanning.Proofs.Encoding.Soundness

/-!
# Exactly the selected actions

What decoding does is said here of the variables of the whole assignment: of those that make an
operator active at a step, and of those that select a constant for it there. The plan has exactly
the actions that are told in this way, and decoding fails if one of them is not told completely. The
assignment may be any one, a partial one or one that satisfies no formula.

Only the blocks of the steps of the plan are looked at, so the variables after them do not matter.
-/

namespace LiftedPlanning

open Cnf (Assignment Literal)

namespace Layout

variable {l : Layout} {m m' : Assignment} {op : OperatorId} {position k : Nat} {c : ConstantId}

/-! ## Selected constants -/

theorem selected_inj {i j : Nat} : l.selected op position i = l.selected op position j ↔ i = j := by
  simp [selected, Literal.pos]

theorem nodup_choices : (l.choices op position).Nodup := by
  have hliterals : (l.choices op position).map (·.2) =
      (List.range (l.eligibility.eligible op position).length).map (l.selected op position) := by
    rw [choices, List.map_map, List.range_eq_range', ← List.zipIdx_map_snd, List.map_map]
    rfl
  exact .of_map (·.2) (hliterals ▸ List.nodup_range.map fun _ _ ↦ selected_inj.mp)

/-- A constant is the only one selected exactly if of the variables of its position the one of its
place is true and no other one is. -/
theorem selects_iff :
    l.Selects m op position c ↔ ∃ i, (l.eligibility.eligible op position)[i]? = some c ∧
      ∀ j < (l.eligibility.eligible op position).length,
        (m.satisfies (l.selected op position j) = true ↔ j = i) := by
  constructor
  · rintro ⟨literal, h⟩
    have hmem : ∀ choice, choice ∈ l.choices op position ∧ m.satisfies choice.2 = true ↔
        choice = (c, literal) := fun choice ↦
      List.mem_filter.symm.trans (h ▸ List.mem_singleton)
    obtain ⟨hchoice, hs⟩ := (hmem _).mpr rfl
    obtain ⟨i, hi, rfl⟩ := mem_choices_iff.mp hchoice
    refine ⟨i, hi, fun j hj ↦ ⟨fun hjs ↦ ?_, fun he ↦ he ▸ hs⟩⟩
    have hpair := (hmem (_, l.selected op position j)).mp
      ⟨mem_choices_iff.mpr ⟨j, List.getElem?_eq_getElem hj, rfl⟩, hjs⟩
    exact selected_inj.mp (congrArg Prod.snd hpair)
  · rintro ⟨i, hi, h⟩
    have hlt := (List.getElem?_eq_some_iff.mp hi).1
    refine ⟨l.selected op position i, List.perm_singleton.mp ?_⟩
    refine (List.perm_ext_iff_of_nodup (nodup_choices.filter _) (List.nodup_singleton _)).mpr ?_
    rintro ⟨d, literal⟩
    rw [List.mem_filter, List.mem_singleton, mem_choices_iff]
    constructor
    · rintro ⟨⟨j, hj, rfl⟩, hs⟩
      obtain rfl := (h j (List.getElem?_eq_some_iff.mp hj).1).mp hs
      rw [Option.some.inj (hi.symm.trans hj)]
    · rintro ⟨⟩
      exact ⟨⟨i, hi, rfl⟩, (h i hlt).mpr rfl⟩

/-- An operator is active in the block of a step. -/
def ActiveAt (l : Layout) (m : Assignment) (k : Nat) (op : OperatorId) : Prop :=
  op ∈ l.operators ∧ m.satisfies ((l.active op).shift (k * l.size)) = true

/-- The constants that are selected for an operator in the block of a step: at every position
exactly one. -/
structure SelectsAt (l : Layout) (m : Assignment) (k : Nat) (op : OperatorId)
    (args : List ConstantId) : Prop where
  length : args.length = l.eligibility.arity op
  /-- The variable of the argument is true, and those of the other eligible constants are not. -/
  argument : ∀ position c, args[position]? = some c →
    ∃ i, (l.eligibility.eligible op position)[i]? = some c ∧
      ∀ j < (l.eligibility.eligible op position).length,
        (m.satisfies ((l.selected op position j).shift (k * l.size)) = true ↔ j = i)

theorem runs_after_iff {args : List ConstantId} (hop : op ∈ l.operators) :
    l.Runs (m.after (k * l.size)) op args ↔ l.ActiveAt m k op ∧ l.SelectsAt m k op args := by
  simp only [ActiveAt, hop, true_and, ← Assignment.satisfies_after]
  constructor
  · intro h
    refine ⟨h.active, h.length, fun position c hc ↦ ?_⟩
    simpa only [Assignment.satisfies_after] using selects_iff.mp (h.selects position c hc)
  · rintro ⟨hactive, hlength, hargument⟩
    refine ⟨hactive, hlength, fun position c hc ↦ selects_iff.mpr ?_⟩
    simpa only [Assignment.satisfies_after] using hargument position c hc

end Layout

namespace Plan

variable {l : Layout} {g : Grounding} {m m' : Assignment} {n k : Nat} {plan : Plan}

/-! ## Blocks that decide -/

theorem decodeStep_congr (h : ∀ v < (k + 1) * l.size, m.value? v = m'.value? v) :
    decodeStep l g m k = decodeStep l g m' k := by
  have hliteral : ∀ literal : Literal, literal.var < l.size →
      m.satisfies (literal.shift (k * l.size)) = m'.satisfies (literal.shift (k * l.size)) := by
    intro literal hlt
    have hvar : (literal.shift (k * l.size)).var < (k + 1) * l.size := by
      rw [Nat.succ_mul, Nat.add_comm]
      exact Nat.add_lt_add_right hlt _
    rw [Assignment.satisfies, Assignment.satisfies, h _ hvar]
  have hactive : (l.operators.filter fun op ↦ m.satisfies ((l.active op).shift (k * l.size))) =
      l.operators.filter fun op ↦ m'.satisfies ((l.active op).shift (k * l.size)) :=
    List.filter_congr fun op hop ↦
      hliteral _ (Layout.var_active_lt (Layout.mem_operators_iff.mp hop))
  rw [decodeStep, decodeStep, hactive]
  refine Fallible.mapM_congr fun op hop ↦ ?_
  have hlt := Layout.mem_operators_iff.mp (List.mem_filter.mp hop).1
  have hposition : decodePosition l m (k * l.size) op = decodePosition l m' (k * l.size) op := by
    funext position
    have hchoices : ((l.choices op position).filter fun choice ↦
        m.satisfies (choice.2.shift (k * l.size))) = (l.choices op position).filter fun choice ↦
          m'.satisfies (choice.2.shift (k * l.size)) :=
      List.filter_congr fun choice hc ↦ hliteral _ (Layout.var_choice_lt hlt hc)
    rw [decodePosition, decodePosition, hchoices]
  rw [decodeAction, decodeAction, hposition]

theorem decodeSteps_congr {N : Nat} (h : ∀ v < N * l.size, m.value? v = m'.value? v)
    (hk : k + n ≤ N) : decodeSteps l g m n k = decodeSteps l g m' n k := by
  induction n generalizing k with
  | zero => rfl
  | succ n ih =>
    have hstep : decodeStep l g m k = decodeStep l g m' k :=
      decodeStep_congr fun v hv ↦ h v (Nat.lt_of_lt_of_le hv (Nat.mul_le_mul_right _ (by omega)))
    rw [decodeSteps, decodeSteps, hstep, ih (by omega)]

/-- **Later variables do not matter.** -/
theorem decode_congr (h : ∀ v < n * l.size, m.value? v = m'.value? v) :
    decode l g m n = decode l g m' n := by
  rw [decode, decode, decodeSteps_congr h (Nat.le_of_eq (Nat.zero_add n))]

/-! ## Decoded plans -/

theorem exists_decode_iff :
    (∃ plan, decode l g m n = .ok plan) ↔ ∀ k < n, ∀ op, l.ActiveAt m k op →
      ∃ args, l.SelectsAt m k op args ∧ ∃ a, g.action? op args = some a := by
  constructor
  · rintro ⟨plan, hd⟩ k hk op hop
    have hactive := hop.2
    rw [← Assignment.satisfies_after] at hactive
    obtain ⟨a, ha, rfl⟩ :=
      exists_mem_actionsAt_of_decode hd hk (Layout.mem_operators_iff.mp hop.1) hactive
    obtain ⟨_, _, hruns, hact⟩ := mem_actionsAt_of_decode hd ha
    exact ⟨a.args, ((Layout.runs_after_iff hop.1).mp hruns).2, a, hact⟩
  · intro h
    refine exists_decode_of_runs fun k hk op hop ha ↦ ?_
    rw [Assignment.satisfies_after] at ha
    obtain ⟨args, hargs, hact⟩ := h k hk op ⟨hop, ha⟩
    exact ⟨args, (Layout.runs_after_iff hop).mpr ⟨⟨hop, ha⟩, hargs⟩,
      Grounding.exists_action?_iff.mp hact⟩

theorem mem_entries_of_decode_iff (hd : decode l g m n = .ok plan) {a : Action} :
    (k, a) ∈ plan.entries ↔ k < n ∧ l.ActiveAt m k a.operator ∧
      l.SelectsAt m k a.operator a.args ∧ g.action? a.operator a.args = some a := by
  rw [← mem_actionsAt_iff, mem_actionsAt_iff_of_decode hd]
  constructor
  · rintro ⟨hk, hop, hruns, hact⟩
    obtain ⟨hactive, hargs⟩ := (Layout.runs_after_iff hop).mp hruns
    exact ⟨hk, hactive, hargs, hact⟩
  · rintro ⟨hk, hactive, hargs, hact⟩
    exact ⟨hk, hactive.1, (Layout.runs_after_iff hactive.1).mpr ⟨hactive, hargs⟩, hact⟩

/-- **What decoding does.** It succeeds exactly if at every step of the plan every active operator
has one selected constant at each position and is known as an action with these constants. The plan
then has the given number of steps, its entries are these actions, one for each active operator of a
step and no others, and they are in strict order of steps and operators. Assignments that agree on
the blocks of these steps are decoded alike, to the same plan or with the same failure. -/
theorem decode_eq_ok_iff_selected (l : Layout) (g : Grounding) (m : Assignment) (n : Nat) :
    ((∃ plan, decode l g m n = .ok plan) ↔ ∀ k < n, ∀ op, l.ActiveAt m k op →
        ∃ args, l.SelectsAt m k op args ∧ ∃ a, g.action? op args = some a) ∧
      (∀ plan, decode l g m n = .ok plan → plan.makespan = n ∧
        plan.entries.Pairwise Before ∧
        (∀ k a, (k, a) ∈ plan.entries ↔ k < n ∧ l.ActiveAt m k a.operator ∧
          l.SelectsAt m k a.operator a.args ∧ g.action? a.operator a.args = some a) ∧
        ∀ k < n, ∀ op, l.ActiveAt m k op → ∃! a, (k, a) ∈ plan.entries ∧ a.operator = op) ∧
      ∀ m' : Assignment, (∀ v < n * l.size, m.value? v = m'.value? v) →
        decode l g m n = decode l g m' n := by
  refine ⟨exists_decode_iff, fun plan hd ↦ ?_, fun m' h ↦ decode_congr h⟩
  have hbefore := pairwise_entries_of_decode hd
  refine ⟨makespan_of_decode hd, hbefore, fun k a ↦ mem_entries_of_decode_iff hd, ?_⟩
  intro k hk op hop
  obtain ⟨args, hargs, a, hact⟩ := exists_decode_iff.mp ⟨plan, hd⟩ k hk op hop
  obtain ⟨_, rfl, rfl⟩ := Grounding.mem_of_action? hact
  have ha := (mem_entries_of_decode_iff hd).mpr ⟨hk, hop, hargs, hact⟩
  refine ⟨a, ⟨ha, rfl⟩, fun b ⟨hb, hopb⟩ ↦ ?_⟩
  obtain ⟨_, hop', hargs', hact'⟩ := (mem_entries_of_decode_iff hd).mp hb
  have hruns := (Layout.runs_after_iff hop'.1).mpr ⟨hop', hargs'⟩
  rw [hopb] at hruns hact'
  rw [hruns.unique ((Layout.runs_after_iff hop.1).mpr ⟨hop, hargs⟩), hact] at hact'
  exact (Option.some.inj hact').symm

/-- The model of the doors without its second block, in which nothing is decided any more. -/
def doorsPrefix : Assignment :=
  ⟨Encoding.doorsModel.values.take 9⟩

/-- The first block of the model tells the plan of the doors. -/
theorem decode_doorsPrefix :
    decode Encoding.doorsEncoding.layout Encoding.doorsGrounding doorsPrefix 1 =
        .ok Encoding.doorsPlan ∧
      Encoding.doorsPlan.entries.Pairwise Before := by
  have hd : decode Encoding.doorsEncoding.layout Encoding.doorsGrounding Encoding.doorsModel 1 =
      .ok Encoding.doorsPlan := by decide +kernel
  obtain ⟨-, hplan, hcongr⟩ := decode_eq_ok_iff_selected Encoding.doorsEncoding.layout
    Encoding.doorsGrounding Encoding.doorsModel 1
  have hagree : ∀ v < 1 * Encoding.doorsEncoding.layout.size,
      Encoding.doorsModel.value? v = doorsPrefix.value? v := by decide +kernel
  exact ⟨(hcongr doorsPrefix hagree).symm.trans hd, (hplan _ hd).2.1⟩

end Plan

end LiftedPlanning
