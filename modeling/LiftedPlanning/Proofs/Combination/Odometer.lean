import LiftedPlanning.Proofs.Combination
import LiftedPlanning.Proofs.Fallible

/-!
# Odometers

The wheels of an odometer show the first of the combinations to come. The order in which the
combinations are listed is decided by the places of their members in the sets: it is the
lexicographic order of these lists of places, the last place changing fastest. Moving the wheels
leads to the next combination of that list, as a wheel moves on when those to its right have run
out, and these start again.
-/

namespace LiftedPlanning

variable {α : Type} {wheels wheels' sets : List (List α)}

/-! ## The list of combinations -/

theorem not_any_isEmpty_iff : ¬sets.any List.isEmpty = true ↔ ∀ set ∈ sets, set ≠ [] := by
  simp only [List.any_eq_true, List.isEmpty_iff, not_exists, not_and, ne_eq]

theorem combinations_eq_nil (h : sets.any List.isEmpty = true) : combinations sets = [] := by
  obtain ⟨set, hset, hnil⟩ := List.any_eq_true.mp h
  refine List.eq_nil_iff_forall_not_mem.mpr fun xs hxs ↦ ?_
  obtain ⟨x, _, hx⟩ := Fallible.exists_left (mem_combinations.mp hxs) hset
  rw [List.isEmpty_iff.mp hnil] at hx
  exact List.not_mem_nil hx

/-- What stands at places of sets, one place in each. -/
def membersAt (sets : List (List α)) (places : List Nat) : List (Option α) :=
  List.zipWith (fun set i ↦ set[i]?) sets places

/-- A list has the combinations of sets in the order of the places that their members have in the
sets: all the lists of places are there, each once, and they are in lexicographic order. -/
def IsLexicographic (sets all : List (List α)) : Prop :=
  ∃ places : List (List Nat), places.Pairwise (List.Lex (· < ·)) ∧
    (∀ is, is ∈ places ↔ List.Forall₂ (fun i set ↦ i < set.length) is sets) ∧
    all.map (List.map some) = places.map (membersAt sets)

theorem map_some_combinations (sets : List (List α)) :
    (combinations sets).map (List.map some) =
      (combinations (sets.map fun set ↦ List.range set.length)).map (membersAt sets) := by
  induction sets with
  | nil => rfl
  | cons set sets ih =>
    have hset : set.map some = (List.range set.length).map (set[·]?) :=
      List.ext_getElem (by simp) fun i hi _ ↦ by simp
    calc (combinations (set :: sets)).map (List.map some)
        = set.flatMap fun a ↦ ((combinations sets).map (List.map some)).map (some a :: ·) := by
          simp [combinations, List.map_flatMap, Function.comp_def]
      _ = (set.map some).flatMap fun x ↦
            ((combinations sets).map (List.map some)).map (x :: ·) := by rw [List.flatMap_map]
      _ = (combinations ((set :: sets).map fun set ↦ List.range set.length)).map
            (membersAt (set :: sets)) := by
          rw [hset, ih]
          simp [combinations, List.map_flatMap, List.flatMap_map, membersAt, Function.comp_def]

theorem isLexicographic_combinations (sets : List (List α)) :
    IsLexicographic sets (combinations sets) := by
  refine ⟨_, pairwise_combinations ?_, fun is ↦ ?_, map_some_combinations sets⟩
  · rw [List.forall_mem_map]
    exact fun _ _ ↦ List.pairwise_lt_range
  · rw [mem_combinations, List.forall₂_map_right_iff]
    simp only [List.mem_range]

/-- The count multiplies the sizes from left to right. It has a result if no product on the way
leaves the range. -/
theorem foldlM_count_eq_some_iff {n m : Nat} :
    sets.foldlM (fun n set ↦ if n * set.length < wordCount then some (n * set.length) else none) n =
      some m ↔
    (∀ k < sets.length, n * ((sets.take (k + 1)).map List.length).prod < wordCount) ∧
      n * (sets.map List.length).prod = m := by
  induction sets generalizing n with
  | nil => simp
  | cons set sets ih =>
    rw [List.foldlM_cons, List.length_cons, Nat.forall_lt_succ_left]
    by_cases hset : n * set.length < wordCount
    · rw [if_pos hset, Option.bind_eq_bind, Option.bind_some, ih]
      simp [hset, Nat.mul_assoc]
    · simp [hset]

theorem combinationCount?_eq_some_iff {n : Nat} :
    combinationCount? sets = some n ↔
      (∀ k ≤ sets.length, ((sets.take k).map List.length).prod < wordCount) ∧
        (combinations sets).length = n := by
  have hnone : ((sets.take 0).map List.length).prod < wordCount := by simp [wordCount]
  rw [combinationCount?, foldlM_count_eq_some_iff, length_combinations, Nat.one_mul]
  simp only [Nat.one_mul, ← Nat.lt_succ_iff (n := sets.length), Nat.forall_lt_succ_left, hnone,
    true_and]

/-! ## Wheels -/

/-- Each wheel shows a candidate of its set and, after it, the rest of the set. -/
def Turned : List (List α) → List (List α) → Prop :=
  List.Forall₂ fun wheel set ↦ wheel ≠ [] ∧ wheel <:+ set

theorem turned_self (h : ∀ set ∈ sets, set ≠ []) : Turned sets sets :=
  List.forall₂_same.mpr fun set hset ↦ ⟨h set hset, List.suffix_rfl⟩

theorem Turned.ne_nil (h : Turned wheels sets) : ∀ set ∈ sets, set ≠ [] := by
  rintro set hset rfl
  obtain ⟨wheel, _, hne, hsuffix⟩ := Fallible.exists_left h hset
  exact hne (List.suffix_nil.mp hsuffix)

theorem upcoming_self (h : ∀ set ∈ sets, set ≠ []) : upcoming sets sets = combinations sets := by
  induction sets with
  | nil => rfl
  | cons set sets ih =>
    obtain ⟨hset, hsets⟩ := List.forall_mem_cons.mp h
    cases set with
    | nil => exact absurd rfl hset
    | cons a rest => rw [upcoming, ih hsets, combinations, List.flatMap_cons]

theorem advance_cons_some {wheel set : List α} (h : advance sets wheels = some wheels') :
    advance (set :: sets) (wheel :: wheels) = some (wheel :: wheels') := by
  simp only [advance, h]

theorem advance_cons_none {set : List α} {a : α} {rest : List α} (h : advance sets wheels = none) :
    advance (set :: sets) ((a :: rest) :: wheels) =
      if rest = [] then none else some (rest :: sets) := by
  cases rest <;> simp [advance, h]

/-- The first combination to come is the one that the wheels show, and moving them leaves the
others. -/
theorem upcoming_eq_cons (h : Turned wheels sets) :
    upcoming sets wheels =
      wheels.filterMap List.head? :: ((advance sets wheels).map (upcoming sets)).getD [] := by
  induction h with
  | nil => rfl
  | @cons wheel set wheels sets hwheel hwheels ih =>
    obtain ⟨a, rest, rfl⟩ := List.exists_cons_of_ne_nil hwheel.1
    rw [upcoming, ih]
    cases hnext : advance sets wheels with
    | some moved =>
      rw [advance_cons_some hnext]
      rfl
    | none =>
      -- the wheels to the right have run out
      rw [advance_cons_none hnext]
      cases rest with
      | nil => rfl
      | cons b rest => simp [upcoming, upcoming_self (Turned.ne_nil hwheels)]

theorem Turned.of_advance (h : Turned wheels sets) (hnext : advance sets wheels = some wheels') :
    Turned wheels' sets := by
  induction h generalizing wheels' with
  | nil => cases hnext
  | @cons wheel set wheels sets hwheel hwheels ih =>
    obtain ⟨a, rest, rfl⟩ := List.exists_cons_of_ne_nil hwheel.1
    cases hmoved : advance sets wheels with
    | some moved =>
      rw [advance_cons_some hmoved] at hnext
      obtain rfl := Option.some.inj hnext
      exact .cons hwheel (ih hmoved)
    | none =>
      rw [advance_cons_none hmoved] at hnext
      split at hnext
      · cases hnext
      · rename_i hrest
        obtain rfl := Option.some.inj hnext
        have hsuffix : rest <:+ set := (List.suffix_cons a rest).trans hwheel.2
        exact .cons ⟨hrest, hsuffix⟩ (turned_self (Turned.ne_nil hwheels))

/-! ## Odometers -/

namespace Odometer

variable {o : Odometer α}

/-- The wheels of an odometer are turned, unless it has shown everything. -/
def IsSound (o : Odometer α) : Prop :=
  ∀ wheels, o.wheels = some wheels → Turned wheels o.sets

theorem isSound_start (sets : List (List α)) : (start sets).IsSound := by
  intro wheels h
  rw [start] at h
  split at h
  · cases h
  · rename_i hne
    obtain rfl := Option.some.inj h
    exact turned_self (not_any_isEmpty_iff.mp hne)

theorem IsSound.next (h : o.IsSound) : o.next.2.IsSound := by
  rw [Odometer.next]
  split
  · exact h
  · rename_i wheels hwheels
    exact fun wheels' hnext ↦ (h wheels hwheels).of_advance hnext

theorem sets_next (o : Odometer α) : o.next.2.sets = o.sets := by
  rw [next]
  split <;> rfl

theorem remaining_start (sets : List (List α)) : (start sets).remaining = combinations sets := by
  by_cases h : sets.any List.isEmpty = true
  · rw [remaining, start, if_pos h, combinations_eq_nil h]
  · rw [remaining, start, if_neg h]
    exact upcoming_self (not_any_isEmpty_iff.mp h)

theorem IsSound.next_eq (h : o.IsSound) :
    o.next.1 = o.remaining.head? ∧ o.next.2.remaining = o.remaining.tail := by
  cases hwheels : o.wheels with
  | none => simp [Odometer.next, remaining, hwheels]
  | some wheels =>
    simp only [Odometer.next, remaining, hwheels, upcoming_eq_cons (h wheels hwheels),
      List.head?_cons, List.tail_cons, true_and]
    cases advance o.sets wheels <;> rfl

end Odometer

end LiftedPlanning
