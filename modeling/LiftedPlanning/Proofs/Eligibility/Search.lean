import Mathlib.Data.List.Destutter
import Mathlib.Data.List.Sort
import LiftedPlanning.Proofs.Catalog

/-!
# Handles in increasing order

A list of handles is put in order by sorting it and dropping repetitions, which then stand side by
side. An increasing list can be searched by halving. Which half to keep is decided by the handle at
its border, so it is the order that makes sure that the place of a handle is not lost.
-/

namespace LiftedPlanning.Handle

variable {kind : HandleKind} {xs ys : List (Handle kind)} {c : Handle kind}

/-- Handles in strictly increasing order. -/
def Increasing (xs : List (Handle kind)) : Prop :=
  xs.Pairwise fun c d ↦ c.index < d.index

theorem Increasing.nodup (h : Increasing xs) : xs.Nodup :=
  h.imp fun hlt heq ↦ Nat.ne_of_lt hlt (congrArg index heq)

theorem Increasing.eq_of_mem_iff (hxs : Increasing xs) (hys : Increasing ys)
    (h : ∀ c, c ∈ xs ↔ c ∈ ys) : xs = ys := by
  have hperm : xs.Perm ys := (List.perm_ext_iff_of_nodup hxs.nodup hys.nodup).mpr h
  exact hperm.eq_of_pairwise (fun c d _ _ hcd hdc ↦ absurd hcd (Nat.lt_asymm hdc)) hxs hys

/-! ## Sorting -/

def sort (xs : List (Handle kind)) : List (Handle kind) :=
  xs.mergeSort fun c d ↦ decide (c.index ≤ d.index)

/-- The handles of a list in strictly increasing order. -/
def ascending (xs : List (Handle kind)) : List (Handle kind) :=
  (sort xs).destutter (· ≠ ·)

theorem pairwise_sort (xs : List (Handle kind)) :
    (sort xs).Pairwise fun c d ↦ c.index ≤ d.index := by
  have hsort : (sort xs).Pairwise fun c d ↦ decide (c.index ≤ d.index) = true :=
    List.pairwise_mergeSort (by simpa using fun _ _ _ ↦ Nat.le_trans)
      (by simpa using fun _ _ ↦ Nat.le_total _ _) xs
  exact hsort.imp of_decide_eq_true

/-- In a sorted list all repetitions of a handle stand side by side. -/
theorem ascending_eq_dedup (xs : List (Handle kind)) : ascending xs = (sort xs).dedup := by
  have hantisymm : Std.Antisymm fun c d : Handle kind ↦ c.index ≤ d.index :=
    ⟨fun _ _ hcd hdc ↦ index_injective (Nat.le_antisymm hcd hdc)⟩
  exact (pairwise_sort xs).destutter_eq_dedup

theorem mem_ascending_iff : c ∈ ascending xs ↔ c ∈ xs := by
  rw [ascending_eq_dedup, List.mem_dedup, sort, List.mem_mergeSort]

theorem increasing_ascending (xs : List (Handle kind)) : Increasing (ascending xs) := by
  rw [ascending_eq_dedup]
  have hle := (pairwise_sort xs).sublist (List.dedup_sublist _)
  refine (hle.and (List.nodup_dedup _)).imp ?_
  exact fun ⟨hle, hne⟩ ↦ Nat.lt_of_le_of_ne hle fun heq ↦ hne (index_injective heq)

/-! ## Searching -/

/-- Searches for a handle at `size` places, the first of which is `base`. -/
def searchFrom (xs : List (Handle kind)) (c : Handle kind) (base size : Nat) : Option Nat :=
  if 1 < size then
    match xs[base + size / 2]? with
    | none => none
    | some d =>
      if c.index < d.index then
        searchFrom xs c base (size - size / 2)
      else
        searchFrom xs c (base + size / 2) (size - size / 2)
  else
    if xs[base]? = some c then some base else none
termination_by size

/-- Searches for a handle by halving. -/
def search? (xs : List (Handle kind)) (c : Handle kind) : Option Nat :=
  searchFrom xs c 0 xs.length

theorem Increasing.lt_iff (h : Increasing xs) {i j : Nat} {d : Handle kind}
    (hi : xs[i]? = some c) (hj : xs[j]? = some d) : i < j ↔ c.index < d.index := by
  obtain ⟨hlti, rfl⟩ := List.getElem?_eq_some_iff.mp hi
  obtain ⟨hltj, rfl⟩ := List.getElem?_eq_some_iff.mp hj
  have hpairwise := List.pairwise_iff_getElem.mp h
  rcases Nat.lt_trichotomy i j with hij | rfl | hji
  · exact iff_of_true hij (hpairwise i j hlti hltj hij)
  · simp
  · exact iff_of_false (Nat.lt_asymm hji) (Nat.lt_asymm (hpairwise j i hltj hlti hji))

/-- The invariant of the search is that the handle is nowhere but at the places that are left. -/
theorem Increasing.searchFrom_eq_some_iff (h : Increasing xs) {base size : Nat}
    (hlen : base + size ≤ xs.length)
    (hleft : ∀ i, xs[i]? = some c → base ≤ i ∧ i < base + size) (i : Nat) :
    searchFrom xs c base size = some i ↔ xs[i]? = some c := by
  fun_induction searchFrom xs c base size with
  | case1 base size hsize hnone =>
    rw [List.getElem?_eq_none_iff] at hnone
    omega
  | case2 base size hsize d hd hlt ih =>
    refine ih (by omega) fun i hi ↦ ?_
    have := (h.lt_iff hi hd).mpr hlt
    have := hleft i hi
    omega
  | case3 base size hsize d hd hge ih =>
    refine ih (by omega) fun i hi ↦ ?_
    have := mt (h.lt_iff hi hd).mp hge
    have := hleft i hi
    omega
  | case4 base size hsize hbase =>
    rw [Option.some.injEq]
    constructor
    · rintro rfl
      exact hbase
    · intro hi
      have := hleft i hi
      omega
  | case5 base size hsize hbase =>
    refine ⟨nofun, fun hi ↦ absurd hi ?_⟩
    obtain rfl : i = base := by
      have := hleft i hi
      omega
    exact hbase

/-- **Searching by halving.** In an increasing list a handle is found at its place, and only if it
has one. -/
theorem Increasing.search?_eq_some_iff (h : Increasing xs) {i : Nat} :
    search? xs c = some i ↔ xs[i]? = some c := by
  refine h.searchFrom_eq_some_iff (Nat.zero_add _).le (fun i hi ↦ ⟨Nat.zero_le i, ?_⟩) i
  rw [Nat.zero_add]
  exact (List.getElem?_eq_some_iff.mp hi).1

end LiftedPlanning.Handle
