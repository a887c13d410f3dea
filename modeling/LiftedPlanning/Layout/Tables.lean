import LiftedPlanning.Eligibility
import LiftedPlanning.Cnf.Word

/-!
# Tables of variables

The variables of a block are handed out from a running counter: one for every operator, then for
every operator and position as many as there are eligible constants, then one for every atom. What
was handed out is kept in tables. The counter is a natural number, or a machine word; there is
nothing to hand out if a word does not suffice, and otherwise the tables are the same.
-/

namespace LiftedPlanning

open Cnf (Allocator)

/-- The numbers of the variables of a block, and how many there are. The variables of a position
follow each other, and so do those of the atoms: of each of these only the first one is kept. -/
structure Layout.Tables where
  active : List Nat
  selected : List (List Nat)
  firstAtom : Nat
  size : Nat

namespace Layout.Tables

section Allot

variable {m : Type → Type} [Monad m] (allocate : Nat → StateT Allocator m Nat) (e : Eligibility)

/-- Hands out the variables of the positions of an operator. -/
def allotPositions (op : OperatorId) : StateT Allocator m (List Nat) :=
  (List.range (e.arity op)).mapM fun position ↦ allocate (e.eligible op position).length

/-- Hands out the variables of some operators, and then those of their positions. -/
def allotOperators (operators : Nat) : StateT Allocator m (List Nat × List (List Nat)) := do
  let active ← (List.range operators).mapM fun _ ↦ allocate 1
  let selected ← (List.range operators).mapM fun op ↦ allotPositions allocate e ⟨op⟩
  return (active, selected)

/-- Hands out the variables of some atoms, after those of operators. -/
def allotAtoms (atoms : Nat) (operators : List Nat × List (List Nat)) :
    StateT Allocator m Tables := do
  let firstAtom ← allocate atoms
  let size := (← get).count
  return { active := operators.1, selected := operators.2, firstAtom, size }

/-- Hands out the variables of some operators and atoms. -/
def allot (operators atoms : Nat) : StateT Allocator m Tables :=
  allotOperators allocate e operators >>= allotAtoms allocate atoms

end Allot

/-- Hands out variables that are numbered without bounds. -/
def allocate (n : Nat) : StateM Allocator Nat := fun a ↦ a.allocate n

/-- Hands out variables that are numbered in words. -/
def allocate? (n : Nat) : StateT Allocator Option Nat := fun a ↦ a.allocate? n

def allotted (e : Eligibility) (operators atoms : Nat) : Tables :=
  ((allot allocate e operators atoms).run .empty).1

/-- The tables of some operators and atoms, if the variables can be numbered in words. -/
def allotted? (e : Eligibility) (operators atoms : Nat) : Option Tables :=
  (allot allocate? e operators atoms).run' .empty

/-! ## Numbers and words -/

/-- A program on words gives what the program on numbers gives, or nothing; and it does give
something as long as the counter stays below the greatest word. -/
structure Follows {α : Type} (words : StateT Allocator Option α) (numbers : StateM Allocator α) :
    Prop where
  count_le : ∀ a, a.count ≤ (numbers.run a).2.count
  sound : ∀ a r, words.run a = some r → numbers.run a = r
  complete : ∀ a, (numbers.run a).2.count + 1 < wordCount → words.run a = some (numbers.run a)

variable {α β : Type}

theorem follows_pure (x : α) : Follows (pure x) (pure x) where
  count_le _ := Nat.le_refl _
  sound _ _ h := Option.some.inj h
  complete _ _ := rfl

theorem follows_allocate (n : Nat) : Follows (allocate? n) (allocate n) where
  count_le _ := Nat.le_add_right _ _
  sound _ _ h := Option.some.inj (Option.ite_none_right_eq_some.mp h).2
  complete a h := by
    have hlt : a.count + n + 1 < wordCount := h
    exact if_pos ⟨by omega, by omega⟩

theorem Follows.bind {words : StateT Allocator Option α} {numbers : StateM Allocator α}
    {words' : α → StateT Allocator Option β} {numbers' : α → StateM Allocator β}
    (h : Follows words numbers) (h' : ∀ x, Follows (words' x) (numbers' x)) :
    Follows (words >>= words') (numbers >>= numbers') where
  count_le a := Nat.le_trans (h.count_le a) ((h' _).count_le _)
  sound a r hr := by
    rw [StateT.run_bind] at hr
    obtain ⟨⟨x, b⟩, hx, hr⟩ := Option.bind_eq_some_iff.mp hr
    have hnumbers : (numbers >>= numbers').run a =
        (numbers' (numbers.run a).1).run (numbers.run a).2 := rfl
    rw [hnumbers, h.sound a _ hx, (h' x).sound b r hr]
  complete a hlt := by
    have hfirst := Nat.lt_of_le_of_lt (Nat.succ_le_succ ((h' _).count_le _)) hlt
    rw [StateT.run_bind, h.complete a hfirst]
    exact (h' _).complete _ hlt

theorem Follows.mapM {words : α → StateT Allocator Option β} {numbers : α → StateM Allocator β}
    (h : ∀ x, Follows (words x) (numbers x)) (xs : List α) :
    Follows (xs.mapM words) (xs.mapM numbers) := by
  induction xs with
  | nil =>
    rw [List.mapM_nil, List.mapM_nil]
    exact follows_pure []
  | cons x xs ih =>
    rw [List.mapM_cons, List.mapM_cons]
    exact (h x).bind fun _ ↦ ih.bind fun _ ↦ follows_pure _

theorem follows_allotOperators (e : Eligibility) (operators : Nat) :
    Follows (allotOperators allocate? e operators) (allotOperators allocate e operators) :=
  (Follows.mapM (fun _ ↦ follows_allocate 1) _).bind fun _ ↦
    (Follows.mapM (fun _ ↦ Follows.mapM (fun _ ↦ follows_allocate _) _) _).bind fun _ ↦
      follows_pure _

theorem run_allotAtoms (atoms : Nat) (operators : List Nat × List (List Nat)) (a : Allocator) :
    (allotAtoms allocate? atoms operators).run a =
      if a.count + atoms < wordCount ∧ a.count + 1 < wordCount then
        some ((allotAtoms allocate atoms operators).run a)
      else
        none := by
  rw [allotAtoms, StateT.run_bind]
  change (a.allocate? atoms).bind _ = _
  rw [Allocator.allocate?]
  split <;> rfl

/-- **Words suffice** for the tables exactly if they suffice for the number of the first atom and
for the size of the block. The tables are then those of the natural numbers. -/
theorem allotted?_eq (e : Eligibility) (operators atoms : Nat) :
    allotted? e operators atoms =
      if (allotted e operators atoms).firstAtom < wordCount ∧
          (allotted e operators atoms).size < wordCount then
        some (allotted e operators atoms)
      else
        none := by
  have hfollows := follows_allotOperators e operators
  have hnumbers : allotted e operators atoms = ((allotAtoms allocate atoms
      ((allotOperators allocate e operators).run .empty).1).run
        ((allotOperators allocate e operators).run .empty).2).1 := rfl
  rw [allotted?, allot, StateT.run'_eq, StateT.run_bind]
  cases hwords : (allotOperators allocate? e operators).run .empty with
  | none =>
    refine (if_neg fun h ↦ ?_).symm
    rw [hfollows.complete .empty h.1] at hwords
    cases hwords
  | some r =>
    rw [hnumbers, hfollows.sound .empty r hwords]
    change Option.map _ ((allotAtoms allocate? atoms r.1).run r.2) = _
    rw [run_allotAtoms]
    have hfits : r.2.count + atoms < wordCount ∧ r.2.count + 1 < wordCount ↔
        ((allotAtoms allocate atoms r.1).run r.2).1.firstAtom < wordCount ∧
          ((allotAtoms allocate atoms r.1).run r.2).1.size < wordCount := and_comm
    simp only [hfits]
    split <;> rfl

theorem eq_of_allotted? {e : Eligibility} {operators atoms : Nat} {tables : Tables}
    (h : allotted? e operators atoms = some tables) : tables = allotted e operators atoms := by
  rw [allotted?_eq] at h
  exact (Option.some.inj (Option.ite_none_right_eq_some.mp h).2).symm

end Layout.Tables

end LiftedPlanning
