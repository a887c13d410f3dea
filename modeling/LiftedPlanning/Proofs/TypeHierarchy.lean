import Mathlib.Logic.Relation
import LiftedPlanning.TypeHierarchy
import LiftedPlanning.Proofs.Catalog
import LiftedPlanning.Proofs.Fallible

/-!
# Supertypes in growing hierarchies

Links lead to smaller handles, so the supertypes of a type were all defined when it was. They are
looked up without leaving the hierarchy, and later definitions do not change them. The descent finds
exactly the types that links lead to: when it comes to a handle, whatever has a link to that type
lies above the handle and has been visited.
-/

namespace LiftedPlanning.TypeHierarchy

variable {h h' : TypeHierarchy} {s t : TypeId}

/-- Every link leads to a smaller handle. -/
def Descends (h : TypeHierarchy) : Prop :=
  ∀ t supertypes, h.directSupertypes? t = some supertypes → ∀ s ∈ supertypes, s.index < t.index

theorem index_lt_of_typeOf {name : String} (ht : h.typeOf name = .ok t) : t.index < h.size :=
  Catalog.index_lt_of_find ht

theorem define_eq_ok_iff {name : String} {supertypes : List TypeId} :
    h.define name supertypes = .ok h' ↔
      (∀ s ∈ supertypes, s.index < h.size) ∧ name ∉ h.names ∧
        h' = ⟨{ h.toCatalog with entries := h.entries ++ [(name, supertypes)] }⟩ := by
  rw [define]
  split
  · rename_i s hs
    have hle : h.size ≤ s.index := by simpa using List.find?_some hs
    have hn : ¬∀ s ∈ supertypes, s.index < h.size := fun hall ↦
      absurd (hall s (List.mem_of_find?_eq_some hs)) (Nat.not_lt.mpr hle)
    simp [hn]
  · rename_i hs
    have hall : ∀ s ∈ supertypes, s.index < h.size := fun s hm ↦ by
      simpa using List.find?_eq_none.mp hs s hm
    split
    · rename_i hi
      have hn : name ∈ h.names := by
        by_contra hn
        rw [Catalog.insert_eq_ok_iff.mpr ⟨hn, rfl⟩] at hi
        cases hi
      simp [hn]
    · rename_i catalog hi
      obtain ⟨hn, rfl⟩ := Catalog.insert_eq_ok_iff.mp hi
      simp only [hn, iff_true_intro hall, true_and, not_false_eq_true, Except.ok.injEq]
      exact eq_comm

theorem Descends.define (hd : h.Descends) {name : String} {supertypes : List TypeId}
    (he : h.define name supertypes = .ok h') : h'.Descends := by
  obtain ⟨hlt, _, rfl⟩ := define_eq_ok_iff.mp he
  intro t ts ht s hs
  rcases Catalog.value?_concat.mp ht with hold | ⟨hnew, rfl⟩
  · exact hd t ts hold s hs
  · rw [hnew]
    exact hlt s hs

/-! ## Subtypes -/

/-- A type was defined with another one as a direct supertype. -/
def IsLink (h : TypeHierarchy) (t s : TypeId) : Prop :=
  s ∈ h.directSupertypes t

theorem Descends.index_lt (hd : h.Descends) (hl : h.IsLink t s) : s.index < t.index := by
  cases hv : h.value? t.index with
  | none => simp [IsLink, directSupertypes, hv] at hl
  | some ts => exact hd t ts hv s (by simpa [IsLink, directSupertypes, hv] using hl)

/-- Links lead from a type to another one, or they are the same. -/
def IsSubtype (h : TypeHierarchy) : TypeId → TypeId → Prop :=
  Relation.ReflTransGen h.IsLink

theorem IsSubtype.trans {u : TypeId} (hu : h.IsSubtype u t) (ht : h.IsSubtype t s) :
    h.IsSubtype u s :=
  Relation.ReflTransGen.trans hu ht

theorem Descends.index_le (hd : h.Descends) (hs : h.IsSubtype t s) : s.index ≤ t.index := by
  induction hs with
  | refl => exact Nat.le_refl _
  | tail _ hl ih => exact Nat.le_trans (Nat.le_of_lt (hd.index_lt hl)) ih

/-! ## The descent -/

theorem mem_climb_of_mem {n : Nat} {reached : List TypeId} (hs : s ∈ reached) :
    s ∈ h.climb n reached := by
  induction n generalizing reached with
  | zero => exact hs
  | succ n ih =>
    rw [climb]
    split
    · exact ih (List.mem_append_left _ hs)
    · exact ih hs

theorem exists_isSubtype_of_mem_climb {n : Nat} {reached : List TypeId}
    (hs : s ∈ h.climb n reached) : ∃ t ∈ reached, h.IsSubtype t s := by
  induction n generalizing reached with
  | zero => exact ⟨s, hs, .refl⟩
  | succ n ih =>
    rw [climb] at hs
    split at hs
    · rename_i hn
      obtain ⟨t, ht, hts⟩ := ih hs
      rcases List.mem_append.mp ht with ht | hl
      · exact ⟨t, ht, hts⟩
      · exact ⟨⟨n⟩, hn, .head hl hts⟩
    · exact ih hs

/-- From the handles that are still to come, the descent follows all links. -/
theorem mem_climb_of_isSubtype (hd : h.Descends) {n : Nat} {reached : List TypeId}
    (ht : t ∈ reached) (hn : t.index < n) (hs : h.IsSubtype t s) : s ∈ h.climb n reached := by
  induction n generalizing reached t with
  | zero => exact absurd hn (Nat.not_lt_zero _)
  | succ n ih =>
    rw [climb]
    rcases Nat.lt_succ_iff_lt_or_eq.mp hn with hlt | rfl
    · split
      · exact ih (List.mem_append_left _ ht) hlt hs
      · exact ih ht hlt hs
    · rw [if_pos ht]
      rcases hs.cases_head with rfl | ⟨u, hl, hus⟩
      · exact mem_climb_of_mem (List.mem_append_left _ ht)
      · exact ih (List.mem_append_right _ hl) (hd.index_lt hl) hus

/-- **The descent is exact.** It finds a type and whatever links lead to from it. -/
theorem mem_supertypes_iff (hd : h.Descends) : s ∈ h.supertypes t ↔ h.IsSubtype t s := by
  constructor
  · intro hs
    obtain ⟨_, hm, hts⟩ := exists_isSubtype_of_mem_climb hs
    exact List.mem_singleton.mp hm ▸ hts
  · exact mem_climb_of_isSubtype hd (List.mem_singleton_self t) (Nat.lt_succ_self _)

theorem isSupertype_iff (hd : h.Descends) : h.isSupertype s t = true ↔ h.IsSubtype t s := by
  rw [isSupertype, decide_eq_true_iff, mem_supertypes_iff hd]

theorem related_iff (hd : h.Descends) :
    h.related s t = true ↔ h.IsSubtype t s ∨ h.IsSubtype s t := by
  rw [related, Bool.or_eq_true, isSupertype_iff hd, isSupertype_iff hd]

/-- **The descent stays inside.** All the types that it visits were defined. -/
theorem isSome_directSupertypes? (hd : h.Descends) (ht : t.index < h.size)
    (hs : s ∈ h.supertypes t) : (h.directSupertypes? s).isSome = true :=
  Catalog.isSome_value? (Nat.lt_of_le_of_lt (hd.index_le ((mem_supertypes_iff hd).mp hs)) ht)

/-! ## Stability -/

theorem climb_of_prefix (hp : h.entries <+: h'.entries) {n : Nat} (hn : n ≤ h.size)
    (reached : List TypeId) : h'.climb n reached = h.climb n reached := by
  induction n generalizing reached with
  | zero => rfl
  | succ n ih =>
    have hdirect : h'.directSupertypes ⟨n⟩ = h.directSupertypes ⟨n⟩ := by
      obtain ⟨ts, hts⟩ := Catalog.exists_value? (c := h.toCatalog) hn
      rw [directSupertypes, directSupertypes, hts, Catalog.value?_of_prefix hp hts]
    rw [climb, climb, hdirect, ih (Nat.le_of_succ_le hn), ih (Nat.le_of_succ_le hn)]

/-- **Later definitions do not matter.** -/
theorem related_of_prefix (hp : h.entries <+: h'.entries) (hs : s.index < h.size)
    (ht : t.index < h.size) : h'.related s t = h.related s t := by
  rw [related, related, isSupertype, isSupertype, isSupertype, isSupertype, supertypes, supertypes,
    supertypes, supertypes, climb_of_prefix hp hs, climb_of_prefix hp ht]

end LiftedPlanning.TypeHierarchy
