import LiftedPlanning.Proofs.Formula

/-!
# What a split says

Formulas are true or false under a valuation of their conditions. The flat part of a formula and its
residual say together what the formula says, whatever the valuation. Both are what can be reached
through conjunctions and disjunctions of one operand: the conditions are the flat part, and there is
a residual exactly if a choice can be reached. Nothing in it could be split off once more.
-/

namespace LiftedPlanning.Formula

variable {f g : Formula} {fs : List Formula} {v : Condition → Bool}

/-! ## Truth -/

mutual

/-- Whether a formula is true under a valuation of the conditions. -/
def eval (v : Condition → Bool) : Formula → Bool
  | .literal c => v c
  | .conj fs => evalAll v fs
  | .disj fs => evalAny v fs

def evalAll (v : Condition → Bool) : List Formula → Bool
  | [] => true
  | f :: fs => eval v f && evalAll v fs

def evalAny (v : Condition → Bool) : List Formula → Bool
  | [] => false
  | f :: fs => eval v f || evalAny v fs

end

theorem eval_conj_eq_true_iff : (conj fs).eval v = true ↔ ∀ f ∈ fs, f.eval v = true := by
  rw [eval]
  induction fs with
  | nil => simp [evalAll]
  | cons f fs ih => rw [evalAll, Bool.and_eq_true, ih, List.forall_mem_cons]

theorem eval_disj_singleton : (disj [f]).eval v = f.eval v := by
  rw [eval, evalAny, evalAny, Bool.or_false]

theorem eval_eq_true_iff (f : Formula) :
    f.eval v = true ↔ (∀ c ∈ f.flat, v c = true) ∧ ∀ g ∈ f.choices, g.eval v = true := by
  induction f using splitInduction with
  | literal c => simp [eval, flat, choices]
  | conj fs ih =>
    rw [eval_conj_eq_true_iff, flat_conj, choices_conj, List.forall_mem_flatMap,
      List.forall_mem_flatMap, ← forall₂_and]
    exact forall₂_congr ih
  | single f ih => rwa [eval_disj_singleton, flat, choices]
  | choice fs h =>
    rw [flat_disj h, choices_disj h, List.forall_mem_singleton]
    exact (and_iff_right (List.forall_mem_nil _)).symm

/-! ## Demands -/

/-- A formula demands another one outright: it can be reached through conjunctions and disjunctions
of a single operand. -/
inductive Demands : Formula → Formula → Prop
  | refl (f : Formula) : Demands f f
  | conj {fs : List Formula} {f g : Formula} : f ∈ fs → Demands f g → Demands (.conj fs) g
  | single {f g : Formula} : Demands f g → Demands (.disj [f]) g

theorem demands_literal_iff {c : Condition} : (literal c).Demands g ↔ g = literal c := by
  constructor
  · rintro ⟨⟩
    rfl
  · rintro rfl
    exact .refl _

theorem demands_conj_iff : (conj fs).Demands g ↔ g = conj fs ∨ ∃ f ∈ fs, f.Demands g := by
  constructor
  · intro h
    cases h with
    | refl => exact .inl rfl
    | conj hf h => exact .inr ⟨_, hf, h⟩
  · rintro (rfl | ⟨f, hf, h⟩)
    · exact .refl _
    · exact .conj hf h

theorem demands_single_iff : (disj [f]).Demands g ↔ g = disj [f] ∨ f.Demands g := by
  constructor
  · intro h
    cases h with
    | refl => exact .inl rfl
    | single h => exact .inr h
  · rintro (rfl | h)
    · exact .refl _
    · exact .single h

theorem demands_disj_iff (hfs : fs.length ≠ 1) : (disj fs).Demands g ↔ g = disj fs := by
  constructor
  · intro h
    cases h with
    | refl => rfl
    | single h => exact absurd rfl hfs
  · rintro rfl
    exact .refl _

theorem mem_flat_iff {c : Condition} : c ∈ f.flat ↔ f.Demands (literal c) := by
  induction f using splitInduction with
  | literal d => rw [flat, List.mem_singleton, demands_literal_iff, literal.injEq]
  | conj fs ih =>
    rw [flat_conj, List.mem_flatMap, demands_conj_iff, or_iff_right (by simp)]
    exact exists_congr fun f ↦ and_congr_right (ih f)
  | single f ih => rw [flat, ih, demands_single_iff, or_iff_right (by simp)]
  | choice fs h =>
    rw [flat_disj h, demands_disj_iff h]
    exact iff_of_false List.not_mem_nil (by simp)

/-- The choices are the disjunctions that a formula demands outright, but for those of a single
operand. -/
theorem mem_choices_iff : g ∈ f.choices ↔ f.Demands g ∧ ∃ fs, g = disj fs ∧ fs.length ≠ 1 := by
  rw [and_comm]
  induction f using splitInduction with
  | literal c =>
    rw [choices, demands_literal_iff]
    exact iff_of_false List.not_mem_nil (by rintro ⟨⟨fs, rfl, -⟩, ⟨⟩⟩)
  | conj fs ih =>
    have hchoice : (∃ gs, g = disj gs ∧ gs.length ≠ 1) → g ≠ conj fs := by
      rintro ⟨gs, rfl, -⟩
      simp
    rw [choices_conj, List.mem_flatMap, demands_conj_iff,
      and_congr_right fun h ↦ or_iff_right (hchoice h), ← exists_and_left]
    exact exists_congr fun f ↦ (and_congr_right (ih f)).trans and_left_comm
  | single f ih =>
    have hchoice : (∃ gs, g = disj gs ∧ gs.length ≠ 1) → g ≠ disj [f] := by
      rintro ⟨gs, rfl, hgs⟩ heq
      rw [disj.inj heq] at hgs
      exact hgs rfl
    rw [choices, ih, demands_single_iff, and_congr_right fun h ↦ or_iff_right (hchoice h)]
  | choice fs h =>
    rw [choices_disj h, List.mem_singleton, demands_disj_iff h]
    exact (and_iff_right_of_imp fun hg ↦ ⟨fs, hg, h⟩).symm

theorem choices_eq_nil_iff :
    f.choices = [] ↔ ∀ fs, f.Demands (disj fs) → fs.length = 1 := by
  rw [List.eq_nil_iff_forall_not_mem]
  constructor
  · intro h fs hfs
    by_contra hne
    exact h _ (mem_choices_iff.mpr ⟨hfs, fs, rfl, hne⟩)
  · intro h g hg
    obtain ⟨hdemands, fs, rfl, hne⟩ := mem_choices_iff.mp hg
    exact hne (h fs hdemands)

/-! ## Residuals -/

theorem residual_spec (h : f.residual = some g) :
    g.flat = [] ∧ g.choices = f.choices ∧ g.conditions = f.choices.flatMap conditions := by
  have hchoice : ∀ g ∈ f.choices, g.flat = [] ∧ g.choices = [g] := fun g hg ↦ by
    obtain ⟨-, fs, rfl, hfs⟩ := mem_choices_iff.mp hg
    exact ⟨flat_disj hfs, choices_disj hfs⟩
  rw [residual] at h
  split at h
  · cases h
  · rename_i g' heq
    obtain rfl := Option.some.inj h
    obtain ⟨hflat, hchoices⟩ := hchoice g' (heq ▸ List.mem_singleton_self g')
    rw [heq, List.flatMap_singleton]
    exact ⟨hflat, hchoices, rfl⟩
  · obtain rfl := Option.some.inj h
    rw [flat_conj, choices_conj, conditions_conj]
    refine ⟨List.flatMap_eq_nil_iff.mpr fun g hg ↦ (hchoice g hg).1, ?_, rfl⟩
    rw [List.flatMap_congr fun g hg ↦ (hchoice g hg).2, List.flatMap_singleton']

/-- What a split of a formula into a flat part and a residual has to be. -/
structure IsSplit (f : Formula) (flat : List Condition) (residual : Option Formula) : Prop where
  /-- The parts say what the formula says. -/
  eval_iff : ∀ v, f.eval v = true ↔
    (∀ c ∈ flat, v c = true) ∧ ∀ g ∈ residual, g.eval v = true
  /-- No condition is lost, and none comes in. -/
  perm : (flat ++ residual.elim [] conditions).Perm f.conditions
  /-- The flat conditions stand in the order that they have in the formula. -/
  flat_sublist : flat.Sublist f.conditions
  /-- So do the conditions of the residual. -/
  residual_sublist : (residual.elim [] conditions).Sublist f.conditions
  /-- The flat conditions are those that the formula demands outright. -/
  mem_flat_iff : ∀ c, c ∈ flat ↔ f.Demands (literal c)
  /-- There is a residual exactly if a choice is demanded outright. -/
  eq_none_iff : residual = none ↔ ∀ fs, f.Demands (disj fs) → fs.length = 1
  /-- The residual cannot be split once more. -/
  split_residual : ∀ g ∈ residual, g.flat = [] ∧ g.residual = some g

theorem conditions_residual :
    f.residual.elim [] conditions = f.choices.flatMap conditions := by
  cases h : f.residual with
  | none => rw [residual_eq_none_iff.mp h, Option.elim_none, List.flatMap_nil]
  | some g => rw [Option.elim_some, (residual_spec h).2.2]

theorem isSplit (f : Formula) : f.IsSplit f.flat f.residual where
  eval_iff v := by
    rw [eval_eq_true_iff]
    refine and_congr_right fun _ ↦ ?_
    cases h : f.residual with
    | none => simp [residual_eq_none_iff.mp h]
    | some g =>
      obtain ⟨hflat, hchoices, -⟩ := residual_spec h
      have hg := g.eval_eq_true_iff (v := v)
      rw [hflat, hchoices, and_iff_right (List.forall_mem_nil _)] at hg
      simp [hg]
  perm := by
    rw [conditions_residual]
    exact f.flat_append_flatMap_choices_perm
  flat_sublist := f.flat_sublist_conditions
  residual_sublist := by
    rw [conditions_residual]
    exact f.flatMap_choices_sublist_conditions
  mem_flat_iff _ := Formula.mem_flat_iff
  eq_none_iff := residual_eq_none_iff.trans choices_eq_nil_iff
  split_residual g h := by
    obtain ⟨hflat, hchoices, -⟩ := residual_spec h
    refine ⟨hflat, ?_⟩
    rw [residual, hchoices, ← residual]
    exact h

/-! ## Conjunctions -/

theorem flat_foldl_and (fs : List Formula) :
    (fs.foldl Formula.and f).flat = f.flat ++ fs.flatMap flat := by
  induction fs generalizing f with
  | nil => simp
  | cons g gs ih => rw [List.foldl_cons, ih, flat_and, List.flatMap_cons, List.append_assoc]

end LiftedPlanning.Formula
