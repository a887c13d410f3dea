import Mathlib.Algebra.GroupWithZero.Nat
import Mathlib.Data.List.Induction
import Mathlib.Data.List.Sort
import LiftedPlanning.Plan.Basic

/-!
# Entries of plans

The entries of a plan are grouped by step, each in one group. Where a step holds no operator twice
and lists its actions in the order of the operators, the entries are in strict order, so that they
are known from their members.
-/

namespace LiftedPlanning

/-! ## Groups -/

/-- Grouping by a key loses nothing. -/
theorem flatMap_filter_perm {κ α : Type} [DecidableEq κ] (key : α → κ) {ks : List κ}
    {xs : List α} (hn : ks.Nodup) (h : ∀ x ∈ xs, key x ∈ ks) :
    (ks.flatMap fun k ↦ xs.filter (key · = k)).Perm xs := by
  induction ks generalizing xs with
  | nil =>
    rw [List.eq_nil_iff_forall_not_mem.mpr fun x hx ↦ List.not_mem_nil (h x hx)]
    exact .nil
  | cons k ks ih =>
    obtain ⟨hk, hn⟩ := List.nodup_cons.mp hn
    have hrest : ks.flatMap (fun k' ↦ xs.filter (key · = k')) =
        ks.flatMap fun k' ↦ (xs.filter (key · ≠ k)).filter (key · = k') := by
      refine List.flatMap_congr fun k' hk' ↦ ?_
      rw [List.filter_filter]
      refine List.filter_congr fun x _ ↦ ?_
      have hne : k' ≠ k := fun he ↦ hk (he ▸ hk')
      grind
    have hother : ∀ x ∈ xs.filter (key · ≠ k), key x ∈ ks := by
      intro x hx
      obtain ⟨hx, hne⟩ := List.mem_filter.mp hx
      exact (List.mem_cons.mp (h x hx)).resolve_left (of_decide_eq_true hne)
    rw [List.flatMap_cons, hrest]
    refine ((ih hn hother).append_left _).trans ?_
    simpa using List.filter_append_perm (fun x ↦ decide (key x = k)) xs

theorem sum_length_filter {κ α : Type} [DecidableEq κ] (key : α → κ) {ks : List κ} {xs : List α}
    (hn : ks.Nodup) (h : ∀ x ∈ xs, key x ∈ ks) :
    (ks.map fun k ↦ (xs.filter (key · = k)).length).sum = xs.length := by
  rw [← List.length_flatMap, (flatMap_filter_perm key hn h).length_eq]

namespace Plan

/-! ## Steps -/

variable {plan : Plan} {k : Nat} {a : Action}

theorem mem_actionsAt_iff : a ∈ plan.actionsAt k ↔ (k, a) ∈ plan.entries := by
  simp only [actionsAt, List.mem_map, List.mem_filter, decide_eq_true_eq, Prod.exists]
  constructor
  · rintro ⟨_, _, ⟨h, rfl⟩, rfl⟩
    exact h
  · exact fun h ↦ ⟨k, a, ⟨h, rfl⟩, rfl⟩

/-- The order of steps, and of operators within a step. -/
def Before (x y : Nat × Action) : Prop :=
  x.1 < y.1 ∨ x.1 = y.1 ∧ x.2.operator.index < y.2.operator.index

theorem Before.asymm {x y : Nat × Action} (h : Before x y) : ¬Before y x := by
  rw [Before] at h ⊢
  omega

theorem pairwise_actionsAt (h : plan.entries.Pairwise Before) (k : Nat) :
    (plan.actionsAt k).Pairwise fun a b ↦ a.operator.index < b.operator.index := by
  rw [actionsAt, List.pairwise_map]
  refine (h.filter _).imp_of_mem fun {x y} hx hy hlt ↦ ?_
  have hstep := of_decide_eq_true (List.mem_filter.mp hx).2
  have hstep' := of_decide_eq_true (List.mem_filter.mp hy).2
  rw [Before] at hlt
  omega

theorem entries_eq_of_mem_iff {xs ys : List (Nat × Action)} (hx : xs.Pairwise Before)
    (hy : ys.Pairwise Before) (h : ∀ entry, entry ∈ xs ↔ entry ∈ ys) : xs = ys := by
  have hnodup : ∀ {zs : List (Nat × Action)}, zs.Pairwise Before → zs.Nodup :=
    fun hz ↦ hz.imp fun hlt heq ↦ (heq ▸ hlt).asymm (heq ▸ hlt)
  refine ((List.perm_ext_iff_of_nodup (hnodup hx) (hnodup hy)).mpr h).eq_of_pairwise ?_ hx hy
  exact fun _ _ _ _ hlt hgt ↦ absurd hgt hlt.asymm

theorem foldlM_push?_eq_some {n : Nat} {xs : List (Nat × Action)} (hn : ∀ entry ∈ xs, entry.1 < n)
    (hx : xs.Pairwise Before) :
    xs.foldlM (fun q entry ↦ q.push? entry.1 entry.2) (idle n) = some ⟨n, xs⟩ := by
  induction xs using List.reverseRecOn with
  | nil => rfl
  | append_singleton xs x ih =>
    obtain ⟨hxs, _, hlast⟩ := List.pairwise_append.mp hx
    have hstep : (xs.getLast?).all (·.1 ≤ x.1) = true := by
      cases hl : xs.getLast? with
      | none => rfl
      | some y =>
        have hbefore := hlast y (List.mem_of_getLast? hl) x (List.mem_singleton_self x)
        rw [Before] at hbefore
        simpa using by omega
    rw [List.foldlM_append, ih (fun entry h ↦ hn entry (List.mem_append_left _ h)) hxs]
    have hx' : x.1 < n := hn x (List.mem_append_right _ (List.mem_singleton_self x))
    simp [push?, hx', hstep]

theorem flatMap_actionsAt_perm {n : Nat} (h : ∀ entry ∈ plan.entries, entry.1 < n) :
    ((List.range n).flatMap plan.actionsAt).Perm (plan.entries.map (·.2)) := by
  have hperm := (flatMap_filter_perm Prod.fst List.nodup_range fun entry hentry ↦
    List.mem_range.mpr (h entry hentry)).map Prod.snd
  rwa [List.map_flatMap] at hperm

end Plan

end LiftedPlanning
