import Std.Data.HashMap.Lemmas
import LiftedPlanning.Proofs.Catalog

/-!
# Name tables

Names in order of entry stand in a list, and a map leads from a name back to its place. A new name
is written to both after the map was asked whether it is there already. The two then stay in step,
so that names and places determine each other, and the table answers like a catalog with the same
names.
-/

namespace LiftedPlanning

/-- Names in order of entry, and a map that leads to their places. -/
structure NameTable where
  kind : String
  names : List String := []
  places : Std.HashMap String Nat := ∅

namespace NameTable

/-- Enters a new name at the end; answers with its place. -/
def register (t : NameTable) (name : String) : Except NameError (Nat × NameTable) :=
  if name ∈ t.places then
    .error (.taken t.kind name)
  else
    let place := t.names.length
    .ok (place, { t with names := t.names ++ [name], places := t.places.insert name place })

/-- The place of a name that has to be there, by the map. -/
def find (t : NameTable) (name : String) : Except NameError Nat :=
  match t.places[name]? with
  | some i => .ok i
  | none => .error (.missing t.kind name)

/-- The name at a place, by the list. -/
def name? (t : NameTable) (i : Nat) : Option String :=
  t.names[i]?

/-- The map leads from every name to its place, and from nowhere else. -/
def InStep (t : NameTable) : Prop :=
  ∀ (name : String) (i : Nat), t.places[name]? = some i ↔ t.names[i]? = some name

/-- Names and places determine each other, and the places are the numbers below a size. -/
structure Indexed (t : NameTable) (size : Nat) : Prop where
  distinct : t.names.Nodup
  inverse : ∀ name i, t.find name = .ok i ↔ t.name? i = some name
  dense : ∀ i, (∃ name, t.name? i = some name) ↔ i < size

variable {α : Type} {t t' : NameTable} {c d : Catalog α} {name : String} {i : Nat}

theorem register_eq_ok_iff : t.register name = .ok (i, t') ↔
    t.places[name]? = none ∧ t.names.length = i ∧
      { t with names := t.names ++ [name], places := t.places.insert name t.names.length } = t' := by
  rw [register, ← Option.not_isSome_iff_eq_none, Std.HashMap.isSome_getElem?_iff_mem]
  by_cases h : name ∈ t.places <;> simp [h]

theorem find_eq_ok_iff : t.find name = .ok i ↔ t.places[name]? = some i := by
  rw [find]
  cases t.places[name]? <;> simp

theorem inStep_empty (kind : String) : InStep { kind } := fun _ _ ↦ by
  simp

namespace InStep

variable (h : t.InStep)

include h

theorem getElem?_eq_none_iff : t.places[name]? = none ↔ name ∉ t.names := by
  simp only [Option.eq_none_iff_forall_ne_some, ne_eq, h name, List.mem_iff_getElem?, not_exists]

/-- **The step.** A new name is written to the list and to the map. -/
theorem register (hr : t.register name = .ok (i, t')) : t'.InStep := by
  obtain ⟨hnone, _, rfl⟩ := register_eq_ok_iff.mp hr
  have hnew : ∀ j, t.names[j]? ≠ some name := fun j hj ↦ by
    rw [(h name j).mpr hj] at hnone
    cases hnone
  intro other j
  rw [Std.HashMap.getElem?_insert, getElem?_concat_eq_some_iff]
  by_cases heq : name = other
  · subst heq
    simp [hnew j, eq_comm]
  · have hne : other ≠ name := fun he ↦ heq he.symm
    simp [heq, hne, h other j]

theorem nodup : t.names.Nodup := by
  refine List.nodup_iff_getElem?_ne_getElem?.mpr fun i j hij hj heq ↦ ?_
  obtain ⟨name, hname⟩ : ∃ name, t.names[j]? = some name := ⟨_, List.getElem?_eq_getElem hj⟩
  have hi := (h name i).mpr (heq.trans hname)
  exact Nat.ne_of_lt hij (Option.some.inj (hi.symm.trans ((h name j).mpr hname)))

theorem indexed : t.Indexed t.names.length where
  distinct := h.nodup
  inverse name i := find_eq_ok_iff.trans (h name i)
  dense i := by rw [name?, ← Option.isSome_iff_exists, isSome_getElem?]

end InStep

/-! ## Agreement with catalogs -/

/-- A name table shows the names of a catalog. -/
structure Shows (t : NameTable) (c : Catalog α) : Prop where
  kind : t.kind = c.kind
  names : t.names = c.names
  inStep : t.InStep

theorem shows_empty (kind : String) : Shows { kind } ({ kind } : Catalog α) :=
  ⟨rfl, rfl, inStep_empty kind⟩

namespace Shows

variable (h : t.Shows c)

include h

theorem place?_eq (name : String) : t.places[name]? = c.place? name := by
  have hplace : ∀ i, c.place? name = some i ↔ t.names[i]? = some name := fun i ↦ by
    rw [Catalog.place?, ← h.names]
    exact idxOf?_eq_some_iff_of_nodup h.inStep.nodup
  refine Option.ext fun i ↦ ?_
  rw [h.inStep name i, hplace]

theorem find_eq (name : String) : t.find name = c.find name := by
  have hplace := h.place?_eq name
  cases hc : c.place? name with
  | none => simp only [find, Catalog.find, hplace, hc, h.kind]
  | some i => simp only [find, Catalog.find, hplace, hc]

theorem length_names : t.names.length = c.size := by
  rw [h.names, Catalog.length_names]

theorem indexed {size : Nat} (hsize : size = c.size) : t.Indexed size := by
  rw [hsize, ← h.length_names]
  exact h.inStep.indexed

theorem register_of_error {a : α} {e : NameError} (he : c.insert name a = .error e) :
    t.register name = .error e := by
  rw [Catalog.insert] at he
  split at he
  · rename_i hmem
    rw [NameTable.register, h.kind, ← Except.error.inj he]
    have hin : name ∈ t.places := by
      rw [← Std.HashMap.isSome_getElem?_iff_mem, h.place?_eq]
      exact List.isSome_idxOf?.mpr hmem
    rw [if_pos hin]
  · cases he

theorem register_of_ok {a : α} (hd : c.insert name a = .ok d) :
    ∃ t', t.register name = .ok (c.size, t') ∧ t'.Shows d := by
  obtain ⟨hnew, rfl⟩ := Catalog.insert_eq_ok_iff.mp hd
  have hr : t.register name = .ok (c.size, _) :=
    register_eq_ok_iff.mpr ⟨h.inStep.getElem?_eq_none_iff.mpr (h.names ▸ hnew), h.length_names, rfl⟩
  refine ⟨_, hr, h.kind, ?_, h.inStep.register hr⟩
  rw [h.names, Catalog.names, Catalog.names, List.map_append, List.map_singleton]

end Shows

end NameTable

end LiftedPlanning
