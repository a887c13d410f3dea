import Mathlib.Data.List.Induction
import LiftedPlanning.Proofs.Combination.Odometer

/-!
# Traversals of combinations

A traversal hands out the combinations of sets one by one and can be restarted at any time. It
leaves the work to a product of sets that may come from elsewhere; of that product it only matters
that it shows the combinations in odometer order, at first and after every restart. The product is
never asked about no sets at all, nor about sets one of which is empty: there the traversal itself
knows that the empty combination is to come, or that nothing is.

What is to come after any calls is what the calls have left of the list of combinations. It is
determined by the answers alone, so nothing has to be known of the states of a product. An odometer
is such a product, and it can be used in the place of a traversal as well.
-/

namespace LiftedPlanning

variable {α σ : Type}

/-! ## Calls -/

/-- What can be asked of a traversal. -/
inductive Cursor.Call
  | next
  | reset

open Cursor (Call)

/-- What is left of a list by calls that take its first member or start it again. -/
def leftAfter (all : List (List α)) (calls : List Call) : List (List α) :=
  calls.foldl (fun left call ↦ match call with
    | .next => left.tail
    | .reset => all) all

section LeftAfter

variable {all : List (List α)} {calls : List Call}

theorem leftAfter_concat_next :
    leftAfter all (calls ++ [.next]) = (leftAfter all calls).tail := by
  rw [leftAfter, List.foldl_append]
  rfl

theorem leftAfter_concat_reset : leftAfter all (calls ++ [.reset]) = all := by
  rw [leftAfter, List.foldl_append]
  rfl

theorem leftAfter_isSuffix (all : List (List α)) (calls : List Call) :
    leftAfter all calls <:+ all := by
  induction calls using List.reverseRecOn with
  | nil => exact List.suffix_rfl
  | append_singleton calls call ih =>
    cases call with
    | next =>
      rw [leftAfter_concat_next]
      exact (List.tail_suffix _).trans ih
    | reset => simp only [leftAfter_concat_reset, List.suffix_rfl]

end LeftAfter

/-- Something that can be called, by what it does in each of its states. -/
structure Cursor (α σ : Type) where
  next : σ → Option (List α) × σ
  reset : σ → σ

namespace Cursor

variable {c : Cursor α σ} {s : σ} {all xs : List (List α)}

def step (c : Cursor α σ) (s : σ) : Call → σ
  | .next => (c.next s).2
  | .reset => c.reset s

def after (c : Cursor α σ) (s : σ) (calls : List Call) : σ :=
  calls.foldl c.step s

theorem after_append (calls more : List Call) :
    c.after s (calls ++ more) = c.after (c.after s calls) more :=
  List.foldl_append

theorem after_concat (calls : List Call) (call : Call) :
    c.after s (calls ++ [call]) = c.step (c.after s calls) call :=
  after_append calls [call]

/-- What is to come in a state: the members of a list one by one, and nothing after them. -/
def Shows (c : Cursor α σ) (s : σ) (xs : List (List α)) : Prop :=
  ∀ n, (c.next (c.after s (List.replicate n .next))).1 = xs[n]?

theorem Shows.head (h : c.Shows s xs) : (c.next s).1 = xs.head? := by
  rw [List.head?_eq_getElem?]
  exact h 0

theorem Shows.tail (h : c.Shows s xs) : c.Shows (c.next s).2 xs.tail := by
  intro n
  rw [List.getElem?_tail]
  exact h (n + 1)

/-- If a state always shows the first member of a list and is followed by one of the other members,
then the list is to come. -/
theorem Shows.of_invariant (inv : σ → List (List α) → Prop)
    (hinv : ∀ s xs, inv s xs → (c.next s).1 = xs.head? ∧ inv (c.next s).2 xs.tail)
    (h : inv s xs) : c.Shows s xs := by
  intro n
  induction n generalizing s xs with
  | zero => exact (hinv s xs h).1.trans List.head?_eq_getElem?
  | succ n ih =>
    rw [← List.getElem?_tail]
    exact ih (hinv s xs h).2

/-- A cursor runs through a list: whatever was called, what the calls have left of the list is to
come. It is a suffix of the list, its first member is the next answer, and once it is empty there is
no answer until a restart, after which the whole list is to come. -/
structure RunsThrough (c : Cursor α σ) (s : σ) (all : List (List α)) : Prop where
  suffix : ∀ calls, leftAfter all calls <:+ all
  shows : ∀ calls, c.Shows (c.after s calls) (leftAfter all calls)
  answer : ∀ calls, (c.next (c.after s calls)).1 = (leftAfter all calls).head?
  exhausted : ∀ calls, leftAfter all calls = [] → ∀ n,
    (c.next (c.after s (calls ++ List.replicate n .next))).1 = none
  restart : ∀ calls, c.Shows (c.reset (c.after s calls)) all

/-- **Restarts are enough.** A cursor runs through a list if the list is to come at first and after
every restart. -/
theorem RunsThrough.of_shows (hstart : c.Shows s all)
    (hrestart : ∀ calls, c.Shows (c.reset (c.after s calls)) all) : c.RunsThrough s all := by
  have hshows : ∀ calls, c.Shows (c.after s calls) (leftAfter all calls) := by
    intro calls
    induction calls using List.reverseRecOn with
    | nil => exact hstart
    | append_singleton calls call ih =>
      rw [after_concat]
      cases call with
      | next =>
        rw [leftAfter_concat_next]
        exact ih.tail
      | reset =>
        rw [leftAfter_concat_reset]
        exact hrestart calls
  refine ⟨leftAfter_isSuffix all, hshows, fun calls ↦ (hshows calls).head, ?_, hrestart⟩
  intro calls hnil n
  rw [after_append, hshows calls n, hnil, List.getElem?_nil]

end Cursor

/-! ## Odometers -/

namespace Odometer

variable {o : Odometer α}

/-- An odometer as something that can be called. -/
def cursor : Cursor α (Odometer α) :=
  ⟨next, reset⟩

theorem IsSound.shows (h : o.IsSound) : cursor.Shows o o.remaining := by
  refine Cursor.Shows.of_invariant (fun o xs ↦ o.IsSound ∧ xs = o.remaining) ?_ ⟨h, rfl⟩
  rintro o _ ⟨h, rfl⟩
  exact ⟨h.next_eq.1, h.next, h.next_eq.2.symm⟩

theorem IsSound.after (h : o.IsSound) (calls : List Call) :
    (cursor.after o calls).IsSound ∧ (cursor.after o calls).sets = o.sets := by
  induction calls using List.reverseRecOn with
  | nil => exact ⟨h, rfl⟩
  | append_singleton calls call ih =>
    rw [Cursor.after_concat]
    cases call with
    | next => exact ⟨ih.1.next, (sets_next _).trans ih.2⟩
    | reset => exact ⟨isSound_start _, ih.2⟩

theorem reset_after (sets : List (List α)) (calls : List Call) :
    (cursor.after (start sets) calls).reset = start sets :=
  congrArg start ((isSound_start sets).after calls).2

theorem remaining_after (sets : List (List α)) (calls : List Call) :
    (cursor.after (start sets) calls).remaining = leftAfter (combinations sets) calls := by
  induction calls using List.reverseRecOn with
  | nil => exact remaining_start sets
  | append_singleton calls call ih =>
    rw [Cursor.after_concat]
    cases call with
    | next =>
      rw [leftAfter_concat_next, ← ih]
      exact ((isSound_start sets).after calls).1.next_eq.2
    | reset =>
      rw [leftAfter_concat_reset, ← remaining_start sets]
      exact congrArg remaining (reset_after sets calls)

theorem shows_start (sets : List (List α)) : cursor.Shows (start sets) (combinations sets) := by
  rw [← remaining_start sets]
  exact (isSound_start sets).shows

theorem shows_reset (sets : List (List α)) (calls : List Call) :
    cursor.Shows (cursor.reset (cursor.after (start sets) calls)) (combinations sets) := by
  have hreset : cursor.reset (cursor.after (start sets) calls) = start sets :=
    reset_after sets calls
  rw [hreset]
  exact shows_start sets

end Odometer

/-! ## Products -/

/-- A cursor through the combinations of sets that comes from elsewhere. -/
structure Product (α σ : Type) extends Cursor α σ where
  start : List (List α) → σ

/-- A product shows the combinations in odometer order, at first and after every restart. It is only
asked for them if there are sets, and if all of them have candidates. -/
structure Product.IsLawful (product : Product α σ) : Prop where
  start : ∀ sets, sets ≠ [] → (∀ set ∈ sets, set ≠ []) →
    product.Shows (product.start sets) (combinations sets)
  restart : ∀ sets, sets ≠ [] → (∀ set ∈ sets, set ≠ []) → ∀ calls,
    product.Shows (product.reset (product.after (product.start sets) calls)) (combinations sets)

/-- Odometers are a product. -/
def Odometer.product : Product α (Odometer α) :=
  { cursor with start := start }

theorem Odometer.isLawful_product : (product : Product α (Odometer α)).IsLawful where
  start sets _ _ := shows_start sets
  restart sets _ _ := shows_reset sets

/-! ## Traversals -/

/-- A run through the combinations of sets, with a product if there is one. -/
structure Traversal (α σ : Type) where
  sets : List (List α)
  product : Option σ
  /-- Whether the empty combination, the only one of no sets at all, is to come. -/
  pending : Bool

namespace Traversal

/-- The number of combinations, wherever the traversal is. -/
def count? (t : Traversal α σ) : Option Nat :=
  combinationCount? t.sets

variable (product : Product α σ) {sets : List (List α)}

/-- The traversal before its first combination. -/
def start (sets : List (List α)) : Traversal α σ where
  sets := sets
  product := if sets.isEmpty || sets.any List.isEmpty then none else some (product.start sets)
  pending := sets.isEmpty

/-- The next combination, if there is one, and the traversal after it. -/
def next (t : Traversal α σ) : Option (List α) × Traversal α σ :=
  if t.pending then
    (some [], { t with pending := false })
  else
    match t.product with
    | none => (none, t)
    | some s =>
      let (xs, s) := product.next s
      (xs, { t with product := some s })

/-- The traversal before its first combination, from anywhere. -/
def reset (t : Traversal α σ) : Traversal α σ :=
  { t with product := t.product.map product.reset, pending := t.sets.isEmpty }

/-- A traversal as something that can be called. -/
def cursor : Cursor α (Traversal α σ) :=
  ⟨next product, reset product⟩

variable {product}

theorem sets_next (t : Traversal α σ) : (next product t).2.sets = t.sets := by
  rw [next]
  split
  · rfl
  · split <;> rfl

theorem sets_after (sets : List (List α)) (calls : List Call) :
    ((cursor product).after (start product sets) calls).sets = sets := by
  induction calls using List.reverseRecOn with
  | nil => rfl
  | append_singleton calls call ih =>
    rw [Cursor.after_concat]
    cases call with
    | next => exact (sets_next _).trans ih
    | reset => exact ih

/-! ### With a product -/

section Some

variable {s : σ} (hne : sets.isEmpty = false)

include hne

theorem reset_some : (cursor product).reset ⟨sets, some s, false⟩ =
    ⟨sets, some (product.reset s), false⟩ := by
  rw [← hne]
  rfl

theorem after_some (calls : List Call) : (cursor product).after ⟨sets, some s, false⟩ calls =
    ⟨sets, some (product.after s calls), false⟩ := by
  induction calls using List.reverseRecOn with
  | nil => rfl
  | append_singleton calls call ih =>
    rw [Cursor.after_concat, Cursor.after_concat, ih]
    cases call with
    | next => rfl
    | reset => exact reset_some hne

theorem shows_some {xs : List (List α)} (h : product.Shows s xs) :
    (cursor product).Shows ⟨sets, some s, false⟩ xs := by
  intro n
  rw [after_some hne]
  exact h n

end Some

/-! ### Without a product -/

theorem exists_after_none (pending : Bool) (calls : List Call) :
    ∃ pending', (cursor product).after ⟨sets, none, pending⟩ calls = ⟨sets, none, pending'⟩ := by
  induction calls using List.reverseRecOn with
  | nil => exact ⟨pending, rfl⟩
  | append_singleton calls call ih =>
    obtain ⟨pending', ih⟩ := ih
    rw [Cursor.after_concat, ih]
    cases call with
    | next => cases pending' <;> exact ⟨false, rfl⟩
    | reset => exact ⟨sets.isEmpty, rfl⟩

theorem shows_none (pending : Bool) :
    (cursor product).Shows ⟨sets, none, pending⟩ (if pending then [[]] else []) := by
  refine Cursor.Shows.of_invariant
    (fun t xs ↦ t.product = none ∧ xs = if t.pending then [[]] else []) ?_ ⟨rfl, rfl⟩
  rintro ⟨sets, _, pending⟩ _ ⟨rfl, rfl⟩
  cases pending <;> exact ⟨rfl, rfl, rfl⟩

theorem combinations_of_no_product (h : (sets.isEmpty || sets.any List.isEmpty) = true) :
    combinations sets = if sets.isEmpty then [[]] else [] := by
  cases sets with
  | nil => rfl
  | cons set sets => exact combinations_eq_nil h

/-! ### The run -/

theorem runsThrough_start (h : product.IsLawful) (sets : List (List α)) :
    (cursor product).RunsThrough (start product sets) (combinations sets) := by
  by_cases hnone : (sets.isEmpty || sets.any List.isEmpty) = true
  · rw [start, if_pos hnone, combinations_of_no_product hnone]
    refine .of_shows (shows_none sets.isEmpty) fun calls ↦ ?_
    have hafter : ∃ pending, (cursor product).after ⟨sets, none, sets.isEmpty⟩ calls =
        ⟨sets, none, pending⟩ := exists_after_none sets.isEmpty calls
    obtain ⟨pending, hafter⟩ := hafter
    rw [hafter]
    exact shows_none sets.isEmpty
  · obtain ⟨hne, hfull⟩ := not_or.mp (mt (Bool.or_eq_true _ _).mpr hnone)
    rw [Bool.not_eq_true] at hne
    rw [not_any_isEmpty_iff] at hfull
    have hsets : sets ≠ [] := List.isEmpty_eq_false_iff.mp hne
    rw [start, if_neg hnone, hne]
    refine .of_shows (shows_some hne (h.start sets hsets hfull)) fun calls ↦ ?_
    rw [after_some hne, reset_some hne]
    exact shows_some hne (h.restart sets hsets hfull calls)

/-- **Traversals run through the combinations in odometer order.** Let a product from elsewhere do
so wherever all of the sets, at least one, have candidates. Then a traversal of any sets runs
through the list of their combinations, and so does the odometer, which knows what remains. The list
is in lexicographic order of the places that the members have in the sets. The combinations are
counted, wherever the traversal is, if the sizes of the sets multiplied from left to right stay in
range: there are as many as the list is long. -/
theorem runsThrough_combinations (h : product.IsLawful) (sets : List (List α)) :
    (cursor product).RunsThrough (start product sets) (combinations sets) ∧
    Odometer.cursor.RunsThrough (.start sets) (combinations sets) ∧
    (∀ calls, (Odometer.cursor.after (.start sets) calls).remaining =
      leftAfter (combinations sets) calls) ∧
    IsLexicographic sets (combinations sets) ∧
    ∀ calls n, ((cursor product).after (start product sets) calls).count? = some n ↔
      (∀ k ≤ sets.length, ((sets.take k).map List.length).prod < wordCount) ∧
        (combinations sets).length = n := by
  refine ⟨runsThrough_start h sets,
    .of_shows (Odometer.shows_start sets) (Odometer.shows_reset sets),
    Odometer.remaining_after sets, isLexicographic_combinations sets, fun calls n ↦ ?_⟩
  rw [count?, sets_after]
  exact combinationCount?_eq_some_iff

/-- A set with a candidate that it lists twice, one with a single candidate and one with two. -/
def sampleSets : List (List Nat) :=
  [[3, 3], [4], [1, 5]]

/-- Three combinations are shown, and after a restart the first one again. -/
def sampleCalls : List Call :=
  [.next, .next, .next, .reset, .next]

/-- With odometers as the product, the second combination is the next one, and two more follow that
are the same but for the place of their first member. -/
theorem runsThrough_sampleSets :
    (Odometer.product : Product Nat (Odometer Nat)).IsLawful ∧
      leftAfter (combinations sampleSets) sampleCalls = [[3, 4, 5], [3, 4, 1], [3, 4, 5]] ∧
      (next Odometer.product ((cursor Odometer.product).after (start Odometer.product sampleSets)
        sampleCalls)).1 = some [3, 4, 5] ∧
      ((cursor Odometer.product).after (start Odometer.product sampleSets) sampleCalls).count? =
        some 4 := by
  obtain ⟨hruns, _, _, _, hcount⟩ := runsThrough_combinations Odometer.isLawful_product sampleSets
  have hleft : leftAfter (combinations sampleSets) sampleCalls =
      [[3, 4, 5], [3, 4, 1], [3, 4, 5]] := by decide
  refine ⟨Odometer.isLawful_product, hleft, ?_, (hcount sampleCalls 4).mpr (by decide)⟩
  have hanswer := hruns.answer sampleCalls
  rwa [hleft] at hanswer

end Traversal

end LiftedPlanning
