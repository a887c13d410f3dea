import Mathlib.Data.List.Basic
import LiftedPlanning.Proofs.Text.Line

/-!
# Lines of stored texts

A line of a text is ended by a newline, or by a return and a newline; the last line may be ended by
nothing. The lines that a text was put together from are cut out again, except that a return at the
end of a line is taken for a part of the line end if a bare newline follows it.

A text is stored in UTF-8, where the bytes of the newline and the return stand for nothing else. So
it makes no difference whether the bytes or the characters are cut into lines.
-/

namespace LiftedPlanning.Text

/-! ## Ended lines -/

section Lines

variable {α : Type} [DecidableEq α] {feed carriage : α} {line xs ys : List α}

/-- A line without the return that a newline after it would take in. -/
def unreturned (carriage : α) (line : List α) : List α :=
  if line.getLast? = some carriage then line.dropLast else line

theorem unreturned_concat : unreturned carriage (line ++ [carriage]) = line := by
  rw [unreturned, if_pos List.getLast?_concat, List.dropLast_concat]

theorem unreturned_of_not_mem (h : carriage ∉ line) : unreturned carriage line = line :=
  if_neg fun he ↦ h (List.mem_of_getLast? he)

theorem eq_unreturned_or (carriage : α) (line : List α) :
    line = unreturned carriage line ∨ line = unreturned carriage line ++ [carriage] := by
  rw [unreturned]
  split
  · rename_i hlast
    obtain ⟨front, rfl⟩ := List.getLast?_eq_some_iff.mp hlast
    exact .inr (by rw [List.dropLast_concat])
  · exact .inl rfl

theorem unreturned_append (h : ys ≠ []) :
    unreturned carriage (xs ++ ys) = xs ++ unreturned carriage ys := by
  rw [unreturned, unreturned, List.getLast?_append_of_ne_nil _ h, List.dropLast_append_of_ne_nil h]
  split <;> rfl

theorem mem_of_mem_unreturned {x : α} (h : x ∈ unreturned carriage line) : x ∈ line := by
  rw [unreturned] at h
  split at h
  · exact (List.dropLast_sublist line).mem h
  · exact h

/-- Induction on the newlines of a text, from the last one on. -/
@[elab_as_elim]
theorem induction_on_feed (feed : α) {motive : List α → Prop}
    (last : ∀ line, feed ∉ line → motive line)
    (ended : ∀ line rest, feed ∉ line → motive rest → motive (line ++ feed :: rest))
    (xs : List α) : motive xs := by
  induction hn : xs.count feed generalizing xs with
  | zero => exact last xs (List.count_eq_zero.mp hn)
  | succ n ih =>
    have hmem : feed ∈ xs := List.count_pos_iff.mp (hn ▸ Nat.succ_pos n)
    obtain ⟨line, rest, rfl, hline⟩ := List.eq_append_cons_of_mem hmem
    rw [List.count_append, List.count_cons_self, List.count_eq_zero.mpr hline] at hn
    exact ended line rest hline (ih rest (by omega))

theorem linesAt_append_cons (h : feed ∉ line) :
    linesAt feed carriage (line ++ feed :: ys) =
      unreturned carriage line :: linesAt feed carriage ys := by
  induction line with
  | nil => rw [List.nil_append, linesAt, if_pos rfl]; rfl
  | cons x line ih =>
    rw [List.mem_cons, not_or] at h
    obtain ⟨hx, hline⟩ := h
    rw [List.cons_append, linesAt, if_neg (Ne.symm hx), ih hline]
    cases line with
    | nil =>
      by_cases hc : x = carriage <;> simp [hc, unreturned]
    | cons y line =>
      have hy : y ≠ feed := fun he ↦ hline (he ▸ List.mem_cons_self)
      rw [if_neg (by simp [hy])]
      simp only [unreturned, List.getLast?_cons_cons, List.dropLast_cons_cons]
      split <;> rfl

theorem linesAt_of_not_mem (h : feed ∉ line) :
    linesAt feed carriage line = if line = [] then [] else [line] := by
  induction line with
  | nil => rfl
  | cons x line ih =>
    rw [List.mem_cons, not_or] at h
    obtain ⟨hx, hline⟩ := h
    have hhead : line.head? ≠ some feed := fun he ↦ hline (List.mem_of_head? he)
    rw [linesAt, if_neg (Ne.symm hx), if_neg fun hc ↦ hhead hc.2, ih hline,
      if_neg (List.cons_ne_nil x line)]
    cases line <;> rfl

/-- The ends that a line can have. -/
inductive LineEnd
  | feed
  | returnFeed
  deriving DecidableEq, Repr

def LineEnd.text (feed carriage : α) : LineEnd → List α
  | .feed => [feed]
  | .returnFeed => [carriage, feed]

/-- What is cut out of a line with a given end. -/
def LineEnd.cut (carriage : α) (line : List α) : LineEnd → List α
  | .feed => unreturned carriage line
  | .returnFeed => line

theorem linesAt_ended (hne : carriage ≠ feed) (h : feed ∉ line) (e : LineEnd) :
    linesAt feed carriage (line ++ (e.text feed carriage ++ ys)) =
      e.cut carriage line :: linesAt feed carriage ys := by
  cases e with
  | feed => exact linesAt_append_cons h
  | returnFeed =>
    have hline : feed ∉ line ++ [carriage] := by simp [h, hne.symm]
    have hcut : linesAt feed carriage ((line ++ [carriage]) ++ feed :: ys) = _ :=
      linesAt_append_cons hline
    rwa [unreturned_concat, List.append_assoc] at hcut

/-- **Written lines** are cut out again. -/
theorem linesAt_flatMap (hne : carriage ≠ feed) {ι : Type} {line : ι → List α}
    {lineEnd : ι → LineEnd} {ended : List ι} {last : List α}
    (h : ∀ i ∈ ended, feed ∉ line i) (hlast : feed ∉ last) :
    linesAt feed carriage (ended.flatMap (fun i ↦ line i ++ (lineEnd i).text feed carriage) ++
        last) =
      ended.map (fun i ↦ (lineEnd i).cut carriage (line i)) ++
        if last = [] then [] else [last] := by
  induction ended with
  | nil => exact linesAt_of_not_mem hlast
  | cons i ended ih =>
    obtain ⟨hi, hended⟩ := List.forall_mem_cons.mp h
    rw [List.flatMap_cons, List.append_assoc, List.append_assoc, linesAt_ended hne hi, ih hended,
      List.map_cons, List.cons_append]

/-- **Appended lines.** If a text is ended and goes on, its lines stay as they are, and only the
last one may lose a return; if the text was ended before, there is an empty line in between. -/
theorem exists_linesAt_append (hne : carriage ≠ feed) (xs : List α) :
    ∃ before last, before.length = xs.count feed ∧
      linesAt feed carriage xs = before ++ (if last = [] then [] else [last]) ∧
      ∀ (e : LineEnd) (ys : List α), linesAt feed carriage (xs ++ (e.text feed carriage ++ ys)) =
        before ++ e.cut carriage last :: linesAt feed carriage ys := by
  induction xs using induction_on_feed feed with
  | last line hline =>
    exact ⟨[], line, (List.count_eq_zero.mpr hline).symm, linesAt_of_not_mem hline,
      fun e ys ↦ linesAt_ended hne hline e⟩
  | ended line rest hline hrest =>
    obtain ⟨before, last, hlength, hlines, happended⟩ := hrest
    refine ⟨unreturned carriage line :: before, last, ?_, ?_, fun e ys ↦ ?_⟩
    · rw [List.length_cons, hlength, List.count_append, List.count_cons_self,
        List.count_eq_zero.mpr hline, Nat.zero_add]
    · rw [linesAt_append_cons hline, hlines, List.cons_append]
    · rw [List.append_assoc, List.cons_append, linesAt_append_cons hline, happended,
        List.cons_append]

end Lines

/-! ## Stored texts -/

/-- A byte below 128 only occurs in the character that it stands for by itself. -/
theorem toNat_of_mem_utf8EncodeChar {c : Char} {b : UInt8} (h : b ∈ String.utf8EncodeChar c)
    (hb : b.toNat < 128) : c.toNat = b.toNat := by
  have hc : c.val.toNat = c.toNat := rfl
  have hhigh : ∀ n, 128 ≤ n → n < 256 → b ≠ UInt8.ofNat n := by
    rintro n hn hn' rfl
    rw [UInt8.toNat_ofNat'] at hb
    omega
  rw [String.utf8EncodeChar, hc] at h
  split at h
  · rw [List.mem_singleton] at h
    rw [h, UInt8.toNat_ofNat']
    omega
  · exfalso
    split at h
    · simp only [List.mem_cons, List.not_mem_nil, or_false] at h
      rcases h with h | h <;> exact hhigh _ (by omega) (by omega) h
    · split at h <;> simp only [List.mem_cons, List.not_mem_nil, or_false] at h
      · rcases h with h | h | h <;> exact hhigh _ (by omega) (by omega) h
      · rcases h with h | h | h | h <;> exact hhigh _ (by omega) (by omega) h

theorem encode_eq_flatMap (cs : List Char) : encode cs = cs.flatMap String.utf8EncodeChar := by
  rw [encode, String.toUTF8, String.toByteArray_ofList, List.utf8Encode, List.data_toByteArray]

theorem encode_append (cs ds : List Char) : encode (cs ++ ds) = encode cs ++ encode ds := by
  simp only [encode_eq_flatMap, List.flatMap_append]

theorem decode?_encode (cs : List Char) : decode? (encode cs) = some cs := by
  have hbytes : (⟨(encode cs).toArray⟩ : ByteArray) = (String.ofList cs).toByteArray := rfl
  rw [decode?, hbytes, String.fromUTF8?, dif_pos (String.ofList cs).isValidUTF8]
  exact congrArg some String.toList_ofList

theorem encode_of_decode? {bytes : List UInt8} {cs : List Char} (h : decode? bytes = some cs) :
    encode cs = bytes := by
  rw [decode?, String.fromUTF8?] at h
  split at h
  · obtain rfl := Option.some.inj h
    rw [encode, String.ofList_toList]
    rfl
  · cases h

/-! ## Lines of stored texts -/

theorem mem_encode_iff_of_ascii {cs : List Char} {c : Char} {b : UInt8} (hb : b.toNat < 128)
    (hc : c.toNat = b.toNat) : b ∈ encode cs ↔ c ∈ cs := by
  rw [encode_eq_flatMap, List.mem_flatMap]
  refine ⟨fun ⟨d, hd, hmem⟩ ↦ ?_, fun hmem ↦ ⟨c, hmem, ?_⟩⟩
  · have hdc : d = c := Char.ext (UInt32.toNat_inj.mp
      ((toNat_of_mem_utf8EncodeChar hmem hb).trans hc.symm))
    exact hdc ▸ hd
  · have hval : c.val.toNat = b.toNat := hc
    rw [String.utf8EncodeChar, hval, if_pos (by omega)]
    exact List.mem_singleton.mpr (UInt8.toNat_inj.mp (by rw [UInt8.toNat_ofNat']; omega))

theorem feed_not_mem_encode {cs : List Char} (h : '\n' ∉ cs) : 10 ∉ encode cs := fun hmem ↦
  h ((mem_encode_iff_of_ascii (by decide) (by decide)).mp hmem)

theorem encode_eq_nil_iff {cs : List Char} : encode cs = [] ↔ cs = [] := by
  refine ⟨fun h ↦ ?_, fun h ↦ h ▸ rfl⟩
  have hread := decode?_encode cs
  rw [h] at hread
  exact Option.some.inj (hread.symm.trans (decode?_encode []))

theorem unreturned_encode (cs : List Char) :
    unreturned 13 (encode cs) = encode (unreturned '\r' cs) := by
  rcases List.eq_nil_or_concat cs with rfl | ⟨front, c, rfl⟩
  · decide
  · rw [List.concat_eq_append]
    by_cases hc : c = '\r'
    · subst hc
      have hreturn : encode ['\r'] = [13] := by decide
      rw [encode_append, hreturn, unreturned_concat, unreturned_concat]
    · have hchar : (front ++ [c]).getLast? ≠ some '\r' := by
        rw [List.getLast?_concat]
        exact fun h ↦ hc (Option.some.inj h)
      have hbyte : 13 ∉ encode [c] := fun h ↦
        hc (List.mem_singleton.mp ((mem_encode_iff_of_ascii (by decide) (by decide)).mp h)).symm
      rw [unreturned, unreturned, if_neg hchar, if_neg]
      have hlast : encode [c] ≠ [] := mt encode_eq_nil_iff.mp (List.cons_ne_nil c [])
      rw [encode_append, List.getLast?_append_of_ne_nil _ hlast]
      exact fun h ↦ hbyte (List.mem_of_getLast? h)

/-- **The lines of a stored text** are the stored lines of the text. -/
theorem linesAt_encode (cs : List Char) :
    linesAt 10 13 (encode cs) = (lines cs).map encode := by
  induction cs using induction_on_feed '\n' with
  | last line hline =>
    rw [lines, linesAt_of_not_mem hline, linesAt_of_not_mem (feed_not_mem_encode hline)]
    by_cases hnil : line = []
    · rw [if_pos hnil, if_pos (encode_eq_nil_iff.mpr hnil), List.map_nil]
    · rw [if_neg hnil, if_neg (mt encode_eq_nil_iff.mp hnil), List.map_singleton]
  | ended line rest hline hrest =>
    have hfeed : encode ('\n' :: rest) = 10 :: encode rest := encode_append ['\n'] rest
    rw [lines, linesAt_append_cons hline, encode_append, hfeed,
      linesAt_append_cons (feed_not_mem_encode hline), List.map_cons, unreturned_encode,
      hrest, lines]

theorem storedLines_encode (cs : List Char) : storedLines (encode cs) = (lines cs).map some := by
  rw [storedLines, linesAt_encode, List.map_map]
  exact List.map_congr_left fun line _ ↦ decode?_encode line

end LiftedPlanning.Text
