import LiftedPlanning.Text.Line

/-!
# Fields of joined texts

A text that was put together from parts, each of them followed by a separator that occurs in none,
falls into the same parts again. The lines of a text have no newlines in them.
-/

namespace LiftedPlanning.Text

variable {α : Type} {isSeparator : α → Bool} {s : α} {xs ys : List α}

/-! ## Fields -/

theorem fieldsBy_of_forall (h : ∀ x ∈ xs, isSeparator x = false) :
    fieldsBy isSeparator xs = [xs] := by
  induction xs with
  | nil => rfl
  | cons x xs ih =>
    obtain ⟨hx, hxs⟩ := List.forall_mem_cons.mp h
    rw [fieldsBy, if_neg (by simp [hx]), ih hxs]

theorem fieldsBy_append_cons (h : ∀ x ∈ xs, isSeparator x = false) (hs : isSeparator s = true) :
    fieldsBy isSeparator (xs ++ s :: ys) = xs :: fieldsBy isSeparator ys := by
  induction xs with
  | nil => rw [List.nil_append, fieldsBy, if_pos hs]
  | cons x xs ih =>
    obtain ⟨hx, hxs⟩ := List.forall_mem_cons.mp h
    rw [List.cons_append, fieldsBy, if_neg (by simp [hx]), ih hxs]

/-- **Joined parts** are the fields of the joined text. -/
theorem fieldsBy_flatMap {parts : List (List α)} {last : List α}
    (h : ∀ part ∈ parts, ∀ x ∈ part, isSeparator x = false)
    (hlast : ∀ x ∈ last, isSeparator x = false) (hs : isSeparator s = true) :
    fieldsBy isSeparator (parts.flatMap (· ++ [s]) ++ last) = parts ++ [last] := by
  induction parts with
  | nil => exact fieldsBy_of_forall hlast
  | cons part parts ih =>
    obtain ⟨hpart, hparts⟩ := List.forall_mem_cons.mp h
    rw [List.flatMap_cons, List.append_assoc, List.append_assoc, List.singleton_append,
      fieldsBy_append_cons hpart hs, ih hparts, List.cons_append]

theorem fieldsBy_append_flatMap {ι : Type} {separator : ι → α} {part : ι → List α} {rest : List ι}
    (hxs : ∀ x ∈ xs, isSeparator x = false)
    (hrest : ∀ i ∈ rest, isSeparator (separator i) = true ∧ ∀ x ∈ part i, isSeparator x = false) :
    fieldsBy isSeparator (xs ++ rest.flatMap fun i ↦ separator i :: part i) =
      xs :: rest.map part := by
  induction rest generalizing xs with
  | nil =>
    rw [List.flatMap_nil, List.append_nil]
    exact fieldsBy_of_forall hxs
  | cons i rest ih =>
    obtain ⟨⟨hs, hpart⟩, hrest⟩ := List.forall_mem_cons.mp hrest
    rw [List.flatMap_cons, List.cons_append, fieldsBy_append_cons hxs hs, ih hpart hrest,
      List.map_cons]

theorem fields_flatMap {separator : Char} {parts : List (List Char)} {last : List Char}
    (h : ∀ part ∈ parts, separator ∉ part) (hlast : separator ∉ last) :
    fields separator (parts.flatMap (· ++ [separator]) ++ last) = parts ++ [last] := by
  refine fieldsBy_flatMap (fun part hpart x hx ↦ ?_) (fun x hx ↦ ?_) (beq_self_eq_true separator)
  · exact beq_false_of_ne fun he ↦ h part hpart (he ▸ hx)
  · exact beq_false_of_ne fun he ↦ hlast (he ▸ hx)

/-! ## Lines -/

theorem not_mem_of_mem_linesAt [DecidableEq α] {feed carriage : α} {line : List α}
    (h : line ∈ linesAt feed carriage xs) : feed ∉ line := by
  induction xs generalizing line with
  | nil => cases h
  | cons x xs ih =>
    rw [linesAt] at h
    split at h
    · rcases List.mem_cons.mp h with rfl | h
      · exact List.not_mem_nil
      · exact ih h
    · rename_i hx
      split at h
      · exact ih h
      · split at h
        · obtain rfl := List.mem_singleton.mp h
          simpa using Ne.symm hx
        · rename_i first rest hlines
          rw [hlines] at ih
          obtain ⟨hfirst, hrest⟩ := List.forall_mem_cons.mp fun l hl ↦ @ih l hl
          rcases List.mem_cons.mp h with rfl | h
          · simp [Ne.symm hx, hfirst]
          · exact hrest line h

theorem not_mem_of_mem_lines {cs line : List Char} (h : line ∈ lines cs) : '\n' ∉ line :=
  not_mem_of_mem_linesAt h

end LiftedPlanning.Text
