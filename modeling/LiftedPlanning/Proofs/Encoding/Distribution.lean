import LiftedPlanning.Encoding.Frame
import LiftedPlanning.Proofs.Combination

/-!
# From branches to clauses

A disjunction of conjunctions, its branches, is turned into clauses by choosing a literal of every
branch in all possible ways. If no branch were true, each would have a false literal, and some
clause would consist of just these. So the clauses say what the disjunction says, whichever literals
are true; the two literals of a variable need not even be opposite.

The clauses are given out one by one. The branches are sorted first, as one with a single literal
leaves no choice, and the choices for the others are left to a product of lists, which may come from
elsewhere. Of that product it only matters that it makes every choice once, and it is asked for one
only if there are branches to choose from and all of them have literals.
-/

namespace LiftedPlanning.Encoding

open Cnf (Clause Literal)

variable {truth : Literal → Prop} {common : List Literal} {branches : List (List Literal)}

/-! ## All choices at once -/

theorem exists_mem_singles_iff :
    (∃ s ∈ (branches.filter fun b ↦ b.length == 1).flatten, truth s) ↔
      ∃ b ∈ branches, b.length = 1 ∧ ∀ s ∈ b, truth s := by
  simp only [List.mem_flatten, List.mem_filter, beq_iff_eq]
  constructor
  · rintro ⟨s, ⟨b, ⟨hb, hone⟩, hs⟩, htrue⟩
    obtain ⟨s', rfl⟩ := List.length_eq_one_iff.mp hone
    obtain rfl := List.mem_singleton.mp hs
    exact ⟨[s], hb, hone, List.forall_mem_singleton.mpr htrue⟩
  · rintro ⟨b, hb, hone, hall⟩
    obtain ⟨s, rfl⟩ := List.length_eq_one_iff.mp hone
    exact ⟨s, ⟨[s], ⟨hb, hone⟩, List.mem_singleton_self s⟩, hall s (List.mem_singleton_self s)⟩

/-- The clauses of branches say that a common literal or all of a branch is true. -/
theorem forall_clausesOfBranches_iff :
    (∀ clause ∈ clausesOfBranches common branches, ∃ s ∈ clause, truth s) ↔
      (∃ s ∈ common, truth s) ∨ ∃ b ∈ branches, ∀ s ∈ b, truth s := by
  rw [clausesOfBranches]
  split
  · rename_i hempty
    obtain ⟨b, hb, hnil⟩ := List.any_eq_true.mp hempty
    have htrue : ∀ s ∈ b, truth s := by simp [List.isEmpty_iff.mp hnil]
    simpa using .inr ⟨b, hb, htrue⟩
  · simp only [List.forall_mem_map, List.mem_append, or_and_right, exists_or, forall_or_left,
      forall_combinations_iff, exists_mem_singles_iff, or_assoc]
    refine or_congr_right ?_
    rw [← exists_or]
    refine exists_congr fun b ↦ ?_
    by_cases hone : b.length = 1 <;> simp [hone]

/-- Without empty branches, the clauses are as many as the choices of a literal from each of them.
-/
theorem length_clausesOfBranches (h : ∀ b ∈ branches, b ≠ []) :
    (clausesOfBranches common branches).length =
      ((branches.filter (2 ≤ ·.length)).map List.length).prod := by
  have hempty : ¬branches.any List.isEmpty = true := by
    rw [List.any_eq_true]
    rintro ⟨b, hb, hnil⟩
    exact h b hb (List.isEmpty_iff.mp hnil)
  have hlong : (branches.filter fun b ↦ !(b.length == 1)) = branches.filter (2 ≤ ·.length) := by
    refine List.filter_congr fun b hb ↦ ?_
    have hpos := List.length_pos_iff.mpr (h b hb)
    grind
  rw [clausesOfBranches, if_neg hempty, List.length_map, length_combinations, hlong]

/-! ## One clause after the other -/

/-- Puts a branch where it belongs: a single literal joins the common ones, a branch of several
literals waits for the product. -/
def sortBranch : List Literal × List (List Literal) → List Literal →
    List Literal × List (List Literal)
  | (common, waiting), [s] => (common ++ [s], waiting)
  | (common, waiting), branch => (common, waiting ++ [branch])

theorem foldl_sortBranch {waiting : List (List Literal)} :
    branches.foldl sortBranch (common, waiting) =
      (common ++ (branches.filter fun b ↦ b.length == 1).flatten,
        waiting ++ branches.filter fun b ↦ !(b.length == 1)) := by
  induction branches generalizing common waiting with
  | nil => simp
  | cons branch branches ih =>
    rw [List.foldl_cons]
    by_cases hone : branch.length = 1
    · obtain ⟨s, rfl⟩ := List.length_eq_one_iff.mp hone
      simp [sortBranch, ih]
    · have hsort : sortBranch (common, waiting) branch = (common, waiting ++ [branch]) := by
        rw [sortBranch]
        rintro s rfl
        exact hone rfl
      simp [hsort, ih, hone]

section Product

variable (product : List (List Literal) → List (List Literal))

/-- The clauses that are given out for "some of the literals `common`, or all the literals of some
branch", one for each choice that the product makes from the branches. -/
def emitted (common : List Literal) (branches : List (List Literal)) : List Clause :=
  if branches.any List.isEmpty then
    []
  else
    let (common, waiting) := branches.foldl sortBranch (common, [])
    if waiting.isEmpty then [common] else (product waiting).map (common ++ ·)

/-- A product lists the combinations of sets, each once, in whatever order. -/
def IsProduct : Prop :=
  ∀ sets, sets ≠ [] → (∀ set ∈ sets, set ≠ []) → (product sets).Perm (combinations sets)

variable {product}

theorem emitted_perm (h : IsProduct product) (common : List Literal)
    (branches : List (List Literal)) :
    (emitted product common branches).Perm (clausesOfBranches common branches) := by
  rw [emitted, clausesOfBranches]
  split
  · exact .nil
  · rename_i hempty
    simp only [foldl_sortBranch, List.nil_append]
    split
    -- without branches to choose from, there is one combination, the empty one
    · rename_i hnone
      rw [List.isEmpty_iff.mp hnone]
      simp [combinations]
    · rename_i hsome
      apply List.Perm.map
      apply h
      · simpa using hsome
      · intro set hset hnil
        exact hempty (List.any_eq_true.mpr ⟨set, List.mem_of_mem_filter hset, by simp [hnil]⟩)

/-- **Distribution.** Whichever literals are true, all the clauses that are given out have a true
literal if and only if a common literal is true or all the literals of a branch are, as those of an
empty branch. If no branch is empty, the clauses are as many as the choices of a literal from every
branch that has several. They are the clauses of the frame, up to their order. -/
theorem emitted_iff (h : IsProduct product) (common : List Literal)
    (branches : List (List Literal)) :
    (∀ truth : Literal → Prop,
      (∀ clause ∈ emitted product common branches, ∃ s ∈ clause, truth s) ↔
        (∃ s ∈ common, truth s) ∨ ∃ b ∈ branches, ∀ s ∈ b, truth s) ∧
    ((∀ b ∈ branches, b ≠ []) → (emitted product common branches).length =
      ((branches.filter (2 ≤ ·.length)).map List.length).prod) ∧
    (emitted product common branches).Perm (clausesOfBranches common branches) := by
  have hperm := emitted_perm h common branches
  refine ⟨fun truth ↦ ?_, fun hne ↦ ?_, hperm⟩
  · simp only [hperm.mem_iff, forall_clausesOfBranches_iff]
  · rw [hperm.length_eq, length_clausesOfBranches hne]

end Product

/-- Two branches of two literals around one of a single literal. -/
def sampleBranches : List (List Literal) :=
  [[.pos 1, .pos 2], [.pos 3], [.pos 4, .neg 5]]

/-- Four clauses come of the branches in odometer order, and if no literal is true but the two of
the last branch, they all have a true one. -/
theorem length_emitted_sampleBranches :
    IsProduct combinations ∧ (∀ b ∈ sampleBranches, b ≠ []) ∧
      (emitted combinations [.pos 0] sampleBranches).length = 4 ∧
        ∀ clause ∈ emitted combinations [.pos 0] sampleBranches,
          ∃ s ∈ clause, s ∈ [Literal.pos 4, .neg 5] := by
  have hproduct : IsProduct combinations := fun _ _ _ ↦ .refl _
  have hne : ∀ b ∈ sampleBranches, b ≠ [] := by decide
  obtain ⟨htruth, hlength, _⟩ := emitted_iff hproduct [.pos 0] sampleBranches
  refine ⟨hproduct, hne, hlength hne, (htruth _).mpr (.inr ⟨_, ?_, fun _ hs ↦ hs⟩)⟩
  decide

end LiftedPlanning.Encoding
