import LiftedPlanning.Cnf.Store
import LiftedPlanning.Proofs.Cnf.Satisfaction
import LiftedPlanning.Proofs.Combination

/-!
# Right verdicts

What is expected of a solver is said about single calls: a model satisfies the clauses of the store
and the assumptions of the call, and where the absence of models is reported there is none. The
solver that tries the assignments of the variables that occur one after the other is of this kind.
-/

namespace LiftedPlanning.Cnf

/-- An assignment satisfies the clauses of a store and the assumptions of a call. -/
def Store.Solution (s : Store) (assumptions : List Literal) (m : Assignment) : Prop :=
  m.Models s.clauses ∧ ∀ l ∈ assumptions, m.satisfies l = true

/-- The verdict on a call decides it, and rightly so. -/
def Verdict.IsRight (s : Store) (assumptions : List Literal) : Verdict → Prop
  | .satisfiable m => s.Solution assumptions m
  | .unsatisfiable => ∀ m, ¬s.Solution assumptions m
  | .unknown => False

namespace Exhaustive

variable {s : Store} {assumptions : List Literal} {clauses : List Clause} {m : Assignment} {n : Nat}

def varCount (clauses : List Clause) : Nat :=
  clauses.flatten.foldr (fun l n ↦ max l.number n) 0

/-- The total assignments of the first `n` variables. -/
def assignments (n : Nat) : List Assignment :=
  (combinations (List.replicate n [false, true])).map fun values ↦ ⟨(values.map some).toArray⟩

/-- Tries all the assignments of the variables that occur. -/
def solve (s : Store) (assumptions : List Literal) : Verdict :=
  let clauses := s.instanceClauses assumptions
  match (assignments (varCount clauses)).find? fun m ↦ clauses.all m.satisfiesClause with
  | some m => .satisfiable m
  | none => .unsatisfiable

theorem models_instanceClauses_iff :
    m.Models (s.instanceClauses assumptions) ↔ s.Solution assumptions m := by
  rw [Store.instanceClauses, Assignment.Models.append_iff, Assignment.Models.map_iff,
    Store.Solution]
  simp only [Assignment.satisfiesClause_singleton]

theorem var_lt_varCount {c : Clause} (hc : c ∈ clauses) {l : Literal} (hl : l ∈ c) :
    l.var < varCount clauses := by
  have hmax : ∀ ls : List Literal, l ∈ ls → l.var < ls.foldr (fun l n ↦ max l.number n) 0 := by
    intro ls hmem
    induction ls with
    | nil => cases hmem
    | cons l' ls ih =>
      rw [List.foldr_cons]
      rcases List.mem_cons.mp hmem with rfl | hmem
      · exact Nat.lt_of_lt_of_le (Nat.lt_succ_self _) (Nat.le_max_left _ _)
      · exact Nat.lt_of_lt_of_le (ih hmem) (Nat.le_max_right _ _)
  exact hmax _ (List.mem_flatten.mpr ⟨c, hc, hl⟩)

/-- The assignment of the first `n` variables, the open ones made false. -/
def completed (m : Assignment) (n : Nat) : Assignment :=
  ⟨(((List.range n).map fun v ↦ (m.value? v).getD false).map some).toArray⟩

theorem completed_mem_assignments (m : Assignment) (n : Nat) : completed m n ∈ assignments n := by
  refine List.mem_map.mpr ⟨_, mem_combinations.mpr ?_, rfl⟩
  rw [List.forall₂_iff_get]
  refine ⟨by simp, fun i _ _ ↦ ?_⟩
  simp

theorem satisfies_completed {l : Literal} (hl : l.var < n) (h : m.satisfies l = true) :
    (completed m n).satisfies l = true := by
  rw [Assignment.satisfies_iff] at h ⊢
  rw [completed, Assignment.value?, List.getElem?_toArray, List.map_map, List.getElem?_map,
    List.getElem?_range hl]
  simp [h]

theorem models_completed (h : m.Models clauses) :
    (completed m (varCount clauses)).Models clauses := by
  intro c hc
  obtain ⟨l, hl, hs⟩ := Assignment.satisfiesClause_iff.mp (h c hc)
  exact Assignment.satisfiesClause_iff.mpr
    ⟨l, hl, satisfies_completed (var_lt_varCount hc hl) hs⟩

/-- **Trying everything is right.** -/
theorem isRight_solve (s : Store) (assumptions : List Literal) :
    (solve s assumptions).IsRight s assumptions := by
  rw [solve]
  split
  · rename_i m hm
    have hall := List.find?_some hm
    rw [List.all_eq_true] at hall
    exact models_instanceClauses_iff.mp hall
  · rename_i hnone
    intro m hm
    have hcompleted := models_completed (models_instanceClauses_iff.mpr hm)
    refine List.find?_eq_none.mp hnone _ (completed_mem_assignments m _) ?_
    exact List.all_eq_true.mpr hcompleted

end Exhaustive

end LiftedPlanning.Cnf
