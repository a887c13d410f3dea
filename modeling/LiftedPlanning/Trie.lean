/-!
# Tries

A trie is a finite map whose keys are numbers followed by lists of numbers. It keeps the first
numbers of its keys side by side and the rests of the keys with the same first number below that
number, so that a look-up compares a key number by number and not with one key after the other. The
main statement, `find?_insert`, says that an insertion changes the value of its key alone.
-/

namespace LiftedPlanning

/-- A finite map from keys to values. -/
inductive Trie (α : Type)
  | empty
  /-- A first number with the value of the key that ends there, the trie of the rests of the longer
  keys, and the other first numbers. -/
  | node (first : Nat) (value : Option α) (below : Trie α) (beside : Trie α)

namespace Trie

/-- A key, split after its first number. -/
structure Key where
  first : Nat
  rest : List Nat
  deriving DecidableEq, Repr

variable {α : Type}

def find? : Trie α → Nat → List Nat → Option α
  | .empty, _, _ => none
  | .node first value below beside, x, xs =>
    if x = first then
      match xs with
      | [] => value
      | y :: ys => below.find? y ys
    else
      beside.find? x xs

def single : Nat → List Nat → α → Trie α
  | x, [], a => .node x (some a) .empty .empty
  | x, y :: ys, a => .node x none (single y ys a) .empty

/-- Gives a value to a key, instead of the value that it may have. -/
def insert : Trie α → Nat → List Nat → α → Trie α
  | .empty, x, xs, a => single x xs a
  | .node first value below beside, x, xs, a =>
    if x = first then
      match xs with
      | [] => .node first (some a) below beside
      | y :: ys => .node first value (below.insert y ys a) beside
    else
      .node first value below (beside.insert x xs a)

theorem find?_single (x : Nat) (xs : List Nat) (a : α) (y : Nat) (ys : List Nat) :
    (single x xs a).find? y ys = if y = x ∧ ys = xs then some a else none := by
  induction xs generalizing x y ys with
  | nil =>
    by_cases h : y = x
    · cases ys <;> simp [single, find?, h]
    · simp [single, find?, h]
  | cons z zs ih =>
    by_cases h : y = x
    · cases ys with
      | nil => simp [single, find?, h]
      | cons w ws => simp [single, find?, h, ih]
    · simp [single, find?, h]

theorem find?_insert (t : Trie α) (x : Nat) (xs : List Nat) (a : α) (y : Nat) (ys : List Nat) :
    (t.insert x xs a).find? y ys = if y = x ∧ ys = xs then some a else t.find? y ys := by
  induction t generalizing x xs y ys with
  | empty => rw [insert, find?_single, find?]
  | node first value below beside ihBelow ihBeside =>
    by_cases hx : x = first
    · by_cases hy : y = first
      · cases xs <;> cases ys <;> simp [insert, find?, hx, hy, ihBelow]
      · have hyx : y ≠ x := fun h ↦ hy (h.trans hx)
        cases xs <;> simp [insert, find?, hx, hy]
    · by_cases hy : y = first
      · have hyx : first ≠ x := fun h ↦ hx h.symm
        simp [insert, find?, hx, hy, hyx]
      · simp [insert, find?, hx, hy, ihBeside]

end Trie

end LiftedPlanning
