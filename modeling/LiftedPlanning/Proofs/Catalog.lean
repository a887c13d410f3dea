import Mathlib.Data.List.Nodup
import LiftedPlanning.Catalog
import LiftedPlanning.Handle

/-!
# Places in catalogs

An entry keeps its place for good: an insertion appends, and an update changes what is stored but
not where. A catalog that begins with the entries of another one therefore answers like it wherever
that one has an answer.
-/

namespace LiftedPlanning

theorem Handle.index_injective {kind : HandleKind} :
    Function.Injective (Handle.index : Handle kind → Nat) :=
  fun ⟨_⟩ ⟨_⟩ h ↦ congrArg Handle.mk h

theorem idxOf?_eq_some_iff_of_nodup {α : Type} [DecidableEq α] {xs : List α} (h : xs.Nodup)
    {x : α} {i : Nat} : xs.idxOf? x = some i ↔ xs[i]? = some x := by
  rw [List.idxOf?_eq_some_iff, List.getElem?_eq_some_iff]
  refine exists_congr fun _ ↦ and_iff_left_of_imp fun hx j hj he ↦ ?_
  exact Nat.ne_of_lt hj (h.getElem_inj_iff.mp (he.trans hx.symm))

theorem getElem?_concat_eq_some_iff {α : Type} {xs : List α} {x y : α} {i : Nat} :
    (xs ++ [x])[i]? = some y ↔ xs[i]? = some y ∨ i = xs.length ∧ y = x := by
  rcases Nat.lt_trichotomy i xs.length with hi | rfl | hi
  · simp [List.getElem?_append_left hi, Nat.ne_of_lt hi]
  · simp [eq_comm]
  · have hlen : (xs ++ [x]).length ≤ i := by
      rw [List.length_append]
      exact hi
    rw [List.getElem?_eq_none hlen, List.getElem?_eq_none (Nat.le_of_lt hi)]
    simp [Nat.ne_of_gt hi]

namespace Catalog

variable {α : Type} {c d : Catalog α} {name : String} {a : α} {i : Nat}

theorem index_lt_of_value? (h : c.value? i = some a) : i < c.size := by
  obtain ⟨_, he, _⟩ := Option.map_eq_some_iff.mp h
  exact (List.getElem?_eq_some_iff.mp he).1

theorem exists_value? (h : i < c.size) : ∃ a, c.value? i = some a :=
  ⟨_, by rw [value?, List.getElem?_eq_getElem h, Option.map_some]⟩

theorem isSome_value? (h : i < c.size) : (c.value? i).isSome = true :=
  Option.isSome_iff_exists.mpr (exists_value? h)

theorem value?_of_prefix (h : c.entries <+: d.entries) (ha : c.value? i = some a) :
    d.value? i = some a := by
  obtain ⟨entry, he, rfl⟩ := Option.map_eq_some_iff.mp ha
  obtain ⟨hi, rfl⟩ := List.getElem?_eq_some_iff.mp he
  obtain ⟨rest, hrest⟩ := h
  rw [value?, ← hrest, List.getElem?_append_left hi, he, Option.map_some]

/-! ## Names -/

theorem find_eq_ok (h : c.find name = .ok i) : c.name? i = some name := by
  rw [find] at h
  split at h
  · rename_i j hj
    obtain rfl := Except.ok.inj h
    obtain ⟨hi, he, _⟩ := List.idxOf?_eq_some_iff.mp hj
    rw [← he, name?, ← List.getElem?_map]
    exact List.getElem?_eq_getElem hi
  · cases h

theorem index_lt_of_find {kind : HandleKind} {h : Handle kind}
    (hf : (c.find name).map Handle.mk = .ok h) : h.index < c.size := by
  cases hi : c.find name with
  | error e => simp [hi, Except.map] at hf
  | ok i =>
    rw [hi] at hf
    obtain rfl := Except.ok.inj hf
    obtain ⟨_, he, _⟩ := Option.map_eq_some_iff.mp (find_eq_ok hi)
    exact (List.getElem?_eq_some_iff.mp he).1

theorem length_names : c.names.length = c.size :=
  List.length_map _

theorem exists_name?_iff : (∃ name, c.name? i = some name) ↔ i < c.size := by
  rw [name?, ← Option.isSome_iff_exists, Option.isSome_map, isSome_getElem?]
  rfl

/-! ## Entries -/

theorem insert_eq_ok_iff :
    c.insert name a = .ok d ↔
      name ∉ c.names ∧ d = { c with entries := c.entries ++ [(name, a)] } := by
  rw [insert]
  by_cases h : name ∈ c.names <;> simp [h, eq_comm]

theorem value?_concat {b : α} :
    ({ c with entries := c.entries ++ [(name, a)] } : Catalog α).value? i = some b ↔
      c.value? i = some b ∨ i = c.size ∧ b = a := by
  rw [value?, value?, ← List.getElem?_map, ← List.getElem?_map, List.map_append,
    List.map_singleton, getElem?_concat_eq_some_iff, List.length_map, size]

theorem values_concat :
    ({ c with entries := c.entries ++ [(name, a)] } : Catalog α).values = c.values ++ [a] := by
  rw [values, values, List.map_append, List.map_singleton]

theorem values_insert (h : c.insert name a = .ok d) : d.values = c.values ++ [a] := by
  obtain ⟨_, rfl⟩ := insert_eq_ok_iff.mp h
  exact values_concat

theorem value?_update {f : α → α} {j : Nat} :
    (c.update i f).value? j = if i = j then (c.value? j).map f else c.value? j := by
  rw [value?, update, List.getElem?_modify]
  split
  · simp [value?, *, Function.comp_def]
  · simp [value?]

theorem update_congr {f g : α → α} (h : ∀ a, c.value? i = some a → f a = g a) :
    c.update i f = c.update i g := by
  rw [update, update]
  refine congrArg (Catalog.mk c.kind) (List.ext_getElem? fun j ↦ ?_)
  rw [List.getElem?_modify, List.getElem?_modify]
  split
  · rename_i hj
    subst hj
    cases he : c.entries[i]? with
    | none => rfl
    | some entry =>
      have hf : f entry.2 = g entry.2 := h entry.2 (by rw [value?, he, Option.map_some])
      rw [Option.map_eq_map, Option.map_eq_map, Option.map_some, Option.map_some, hf]
  · rfl

theorem entries_update_map {β : Type} {f : α → α} {g : String × α → β}
    (h : ∀ e, g (e.1, f e.2) = g e) : (c.update i f).entries.map g = c.entries.map g := by
  refine List.ext_getElem? fun j ↦ ?_
  rw [List.getElem?_map, List.getElem?_map, update, List.getElem?_modify]
  split
  · simp only [Option.map_eq_map, Option.map_map, Function.comp_def, h]
  · simp

/-! ## Names and places -/

/-- Names and places determine each other, and the places are the numbers below the size. -/
structure Indexed (c : Catalog α) : Prop where
  distinct : c.names.Nodup
  inverse : ∀ name i, c.find name = .ok i ↔ c.name? i = some name
  dense : ∀ i, (∃ name, c.name? i = some name) ↔ i < c.size

theorem find_of_name? (h : c.names.Nodup) (hi : c.name? i = some name) : c.find name = .ok i := by
  rw [name?, ← List.getElem?_map] at hi
  have hplace : c.place? name = some i := (idxOf?_eq_some_iff_of_nodup h).mpr hi
  rw [find, hplace]

theorem Indexed.of_nodup (h : c.names.Nodup) : c.Indexed :=
  ⟨h, fun _ _ ↦ ⟨find_eq_ok, find_of_name? h⟩, fun _ ↦ exists_name?_iff⟩

theorem Indexed.insert (h : c.Indexed) (hd : c.insert name a = .ok d) : d.Indexed := by
  obtain ⟨hname, rfl⟩ := insert_eq_ok_iff.mp hd
  refine .of_nodup ?_
  rw [names, List.map_append]
  exact h.distinct.append (List.nodup_singleton _) (List.disjoint_singleton.mpr hname)

theorem Indexed.update (h : c.Indexed) (f : α → α) : (c.update i f).Indexed := by
  refine .of_nodup ?_
  rw [names, entries_update_map fun _ ↦ rfl]
  exact h.distinct

end Catalog

end LiftedPlanning
