import LiftedPlanning.Cnf.Assignment

/-!
# What satisfied clauses say

A clause is satisfied if one of its literals is true; an open variable makes neither of its literals
true. Clauses are read here as implications and exclusions between true literals. Those readings
hold of every assignment. Their converses need the literals to be decided.

An assignment is read from a variable on by `after`. The clauses of a later step are those of the
first one, read further on in the assignment.
-/

namespace LiftedPlanning.Cnf

namespace Literal

@[simp] theorem negate_negate (l : Literal) : l.negate.negate = l := by
  simp [negate]

theorem negate_shift (n : Nat) (l : Literal) : (l.shift n).negate = l.negate.shift n := rfl

end Literal

namespace Assignment

/-- All the clauses are satisfied. -/
def Models (m : Assignment) (clauses : List Clause) : Prop :=
  ∀ c ∈ clauses, m.satisfiesClause c = true

instance (m : Assignment) (clauses : List Clause) : Decidable (m.Models clauses) :=
  inferInstanceAs (Decidable (∀ c ∈ clauses, m.satisfiesClause c = true))

/-- The variable of a literal is not open. -/
def Decides (m : Assignment) (l : Literal) : Prop :=
  m.satisfies l = true ∨ m.satisfies l.negate = true

variable {m : Assignment}

/-! ## Literals -/

theorem satisfies_iff {l : Literal} : m.satisfies l = true ↔ m.value? l.var = some l.positive := by
  simp [satisfies]

theorem not_satisfies_negate {l : Literal} (h : m.satisfies l = true) :
    ¬m.satisfies l.negate = true := by
  rw [satisfies_iff] at h ⊢
  simp [Literal.negate, h]

theorem Decides.satisfies_negate_iff {l : Literal} (h : m.Decides l) :
    m.satisfies l.negate = true ↔ ¬m.satisfies l = true :=
  ⟨fun hn hl ↦ not_satisfies_negate hl hn, h.resolve_left⟩

theorem decides_of_isSome {l : Literal} (h : (m.value? l.var).isSome = true) : m.Decides l := by
  obtain ⟨b, hb⟩ := Option.isSome_iff_exists.mp h
  rw [Decides, satisfies_iff, satisfies_iff, Literal.negate, hb]
  cases b <;> cases l.positive <;> simp

/-! ## Clauses -/

theorem satisfiesClause_iff {c : Clause} :
    m.satisfiesClause c = true ↔ ∃ l ∈ c, m.satisfies l = true := by
  rw [satisfiesClause, List.any_eq_true]

theorem satisfiesClause_append {c d : Clause} :
    m.satisfiesClause (c ++ d) = true ↔
      m.satisfiesClause c = true ∨ m.satisfiesClause d = true := by
  rw [satisfiesClause, List.any_append, Bool.or_eq_true]
  rfl

@[simp] theorem satisfiesClause_singleton {l : Literal} :
    m.satisfiesClause [l] = true ↔ m.satisfies l = true := by
  simp [satisfiesClause_iff]

theorem satisfiesClause_cons {l : Literal} {c : Clause} :
    m.satisfiesClause (l :: c) = true ↔ m.satisfies l = true ∨ m.satisfiesClause c = true := by
  rw [satisfiesClause, List.any_cons, Bool.or_eq_true]
  rfl

theorem not_satisfiesClause_negate {ls : List Literal} (h : ∀ l ∈ ls, m.satisfies l = true) :
    ¬m.satisfiesClause (ls.map Literal.negate) = true := by
  rw [satisfiesClause_iff]
  rintro ⟨l', hl', hs⟩
  obtain ⟨l, hl, rfl⟩ := List.mem_map.mp hl'
  exact not_satisfies_negate (h l hl) hs

theorem satisfiesClause_negate_iff {ls : List Literal} (h : ∀ l ∈ ls, m.Decides l) :
    m.satisfiesClause (ls.map Literal.negate) = true ↔ ¬∀ l ∈ ls, m.satisfies l = true := by
  refine ⟨fun hc hs ↦ not_satisfiesClause_negate hs hc, fun hs ↦ ?_⟩
  obtain ⟨l, hnot⟩ := Classical.not_forall.mp hs
  obtain ⟨hl, hn⟩ := Classical.not_imp.mp hnot
  exact satisfiesClause_iff.mpr
    ⟨l.negate, List.mem_map_of_mem hl, ((h l hl).satisfies_negate_iff).mpr hn⟩

/-! ## Lists of clauses -/

theorem Models.append_iff {c d : List Clause} : m.Models (c ++ d) ↔ m.Models c ∧ m.Models d := by
  simp only [Models, List.mem_append, or_imp, forall_and]

theorem Models.flatMap_iff {α : Type} {xs : List α} {f : α → List Clause} :
    m.Models (xs.flatMap f) ↔ ∀ x ∈ xs, m.Models (f x) := by
  simp only [Models, List.mem_flatMap]
  exact ⟨fun h x hx c hc ↦ h c ⟨x, hx, hc⟩, fun h c ⟨x, hx, hc⟩ ↦ h x hx c hc⟩

theorem Models.map_iff {α : Type} {xs : List α} {f : α → Clause} :
    m.Models (xs.map f) ↔ ∀ x ∈ xs, m.satisfiesClause (f x) = true := by
  simp [Models]

theorem Models.filterMap_iff {α : Type} {xs : List α} {f : α → Option Clause} :
    m.Models (xs.filterMap f) ↔ ∀ x ∈ xs, ∀ c, f x = some c → m.satisfiesClause c = true := by
  simp only [Models, List.mem_filterMap]
  exact ⟨fun h x hx c hc ↦ h c ⟨x, hx, hc⟩, fun h c ⟨x, hx, hc⟩ ↦ h x hx c hc⟩

theorem Models.cons_iff {c : Clause} {cs : List Clause} :
    m.Models (c :: cs) ↔ m.satisfiesClause c = true ∧ m.Models cs := by
  simp [Models]

@[simp] theorem models_nil : m.Models [] := by
  simp [Models]

/-! ## Reading further on -/

/-- The assignment without its first `n` variables. -/
def after (m : Assignment) (n : Nat) : Assignment :=
  ⟨m.values.extract n m.values.size⟩

theorem value?_after (m : Assignment) (n v : Nat) : (m.after n).value? v = m.value? (v + n) := by
  rw [value?, value?, after, Array.getElem?_extract, Nat.add_comm n v]
  split
  · rfl
  · rw [Array.getElem?_eq_none (by omega)]

theorem satisfies_after (m : Assignment) (n : Nat) (l : Literal) :
    (m.after n).satisfies l = m.satisfies (l.shift n) := by
  rw [satisfies, value?_after, satisfies, Literal.shift]

theorem satisfiesClause_after (m : Assignment) (n : Nat) (c : Clause) :
    (m.after n).satisfiesClause c = m.satisfiesClause (c.shift n) := by
  rw [satisfiesClause, satisfiesClause, Clause.shift, List.any_map]
  exact congrArg c.any (funext fun l ↦ satisfies_after m n l)

theorem models_after {n : Nat} {clauses : List Clause} :
    (m.after n).Models clauses ↔ m.Models (clauses.map (Clause.shift n)) := by
  simp only [Models, List.forall_mem_map, satisfiesClause_after]

@[simp] theorem after_zero (m : Assignment) : m.after 0 = m := by
  simp [after]

theorem after_after (m : Assignment) (n k : Nat) : (m.after n).after k = m.after (n + k) := by
  rw [after, after, after, Array.size_extract, Array.extract_extract]
  congr 2
  omega

end Assignment

end LiftedPlanning.Cnf
