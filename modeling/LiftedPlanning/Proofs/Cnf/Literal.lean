import LiftedPlanning.Cnf.Word

/-!
# Numeric forms of literals

A literal is read back from its numeric form. As long as no number leaves the range of signed words,
the operations on words are those on literals.
-/

namespace LiftedPlanning.Cnf

theorem Width.wrap_signed64 (n : Int) : signed64.wrap n = n.bmod wordCount := by
  have hpow : Nat.pow 2 64 = wordCount := by decide
  rw [wrap, signed64, if_pos rfl, hpow]

theorem Width.wrap_signed64_of_lt {n : Nat} (h : n < signBound) : signed64.wrap n = n := by
  rw [signBound] at h
  rw [wrap_signed64, wordCount]
  exact Int.bmod_eq_of_le_mul_two (by omega) (by omega)

namespace Literal

variable {s : Literal} {n : Nat}

theorem natAbs_toInt (s : Literal) : s.toInt.natAbs = s.number := by
  rw [toInt]
  split <;> omega

theorem toInt_pos_iff : 0 < s.toInt ↔ s.positive = true := by
  have hpos : 0 < s.number := Nat.succ_pos _
  rw [toInt]
  split <;> simp_all

@[simp] theorem ofInt?_toInt (s : Literal) : ofInt? s.toInt = some s := by
  have hne : s.toInt ≠ 0 := by
    rw [← Int.natAbs_ne_zero, natAbs_toInt]
    exact Nat.succ_ne_zero _
  have hsign : decide (0 < s.toInt) = s.positive := by simp [toInt_pos_iff]
  rw [ofInt?, if_neg hne, natAbs_toInt, hsign]
  rfl

theorem ofInt?_eq_none_iff {z : Int} : ofInt? z = none ↔ z = 0 := by
  rw [ofInt?]
  split <;> simp [*]

theorem toInt_of_ofInt? {z : Int} (h : ofInt? z = some s) : s.toInt = z := by
  rw [ofInt?] at h
  split at h
  · cases h
  · obtain rfl := Option.some.inj h
    simp only [toInt, number, decide_eq_true_eq]
    split <;> omega

theorem natAbs_of_ofInt? {z : Int} (h : ofInt? z = some s) : z ≠ 0 ∧ z.natAbs = s.number := by
  obtain rfl := toInt_of_ofInt? h
  rw [← Int.natAbs_ne_zero, natAbs_toInt]
  exact ⟨Nat.succ_ne_zero _, rfl⟩

/-! ## Words -/

theorem toInt_inj {t : Literal} (h : s.toInt = t.toInt) : s = t :=
  Option.some.inj ((ofInt?_toInt s).symm.trans (h ▸ ofInt?_toInt t))

theorem ofWord?_eq_some_iff {z : Int} : ofWord? z = some s ↔ isWord z = true ∧ s.toInt = z := by
  rw [ofWord?]
  constructor
  · intro h
    obtain ⟨hword, h⟩ := Option.ite_none_right_eq_some.mp h
    exact ⟨hword, toInt_of_ofInt? h⟩
  · rintro ⟨hword, rfl⟩
    rw [if_pos hword, ofInt?_toInt]

theorem ofWord?_toInt (h : s.number < signBound) : ofWord? s.toInt = some s := by
  have hword : isWord s.toInt = true := by
    have := natAbs_toInt s
    simp only [isWord, Bool.and_eq_true, decide_eq_true_eq]
    omega
  exact ofWord?_eq_some_iff.mpr ⟨hword, rfl⟩

theorem toInt_negate (s : Literal) : s.negate.toInt = -s.toInt := by
  obtain ⟨var, positive⟩ := s
  cases positive <;> simp [toInt, negate, number]

theorem toInt_shift (s : Literal) (n : Nat) :
    (s.shift n).toInt = if s.positive then s.toInt + n else s.toInt - n := by
  obtain ⟨var, positive⟩ := s
  cases positive <;> simp [toInt, shift, number] <;> omega

theorem negateWord?_eq_some (h : s.number < signBound) : s.negateWord? = some s.negate := by
  rw [negateWord?, ← toInt_negate]
  exact ofWord?_toInt h

theorem number_shift (s : Literal) (n : Nat) : (s.shift n).number = s.number + n :=
  Nat.add_right_comm _ _ _

/-- Offsets that are signed words are not wrapped. -/
theorem shiftWord?_of_lt (h : n < signBound) : s.shiftWord? n = ofWord? (s.shift n).toInt := by
  rw [shiftWord?, Width.wrap_signed64_of_lt h, toInt_shift]

theorem shiftWord?_eq_some (h : s.number + n < signBound) : s.shiftWord? n = some (s.shift n) := by
  rw [shiftWord?_of_lt (Nat.lt_of_le_of_lt (Nat.le_add_left _ _) h)]
  exact ofWord?_toInt (number_shift s n ▸ h)

/-- An offset that is a signed word never leads to another literal than without bounds. -/
theorem eq_shift_of_shiftWord? {t : Literal} (hn : n < signBound) (h : s.shiftWord? n = some t) :
    t = s.shift n := by
  rw [shiftWord?_of_lt hn] at h
  exact toInt_inj (ofWord?_eq_some_iff.mp h).2

/-- **Words suffice** to shift a literal exactly if the shifted literal is a word. -/
theorem shiftWord?_eq_some_iff : s.shiftWord? n = some (s.shift n) ↔ isWord (s.shift n).toInt := by
  constructor
  · exact fun h ↦ (ofWord?_eq_some_iff.mp h).2 ▸ (ofWord?_eq_some_iff.mp h).1
  · intro h
    have hn : n < signBound := by
      have habs := natAbs_toInt (s.shift n)
      rw [number_shift, number] at habs
      simp only [isWord, Bool.and_eq_true, decide_eq_true_eq] at h
      omega
    exact (shiftWord?_of_lt hn).trans (ofWord?_eq_some_iff.mpr ⟨h, rfl⟩)

/-- Large offsets count as negative, and may change the sign. -/
example : (pos 0).shiftWord? signBound = some (neg (signBound - 2)) := by
  decide

theorem number_lt_of_shiftWord? {t : Literal} (hpos : t.positive = true)
    (h : s.shiftWord? n = some t) : t.number < signBound := by
  obtain ⟨hword, ht⟩ := ofWord?_eq_some_iff.mp h
  rw [← ht, isWord, toInt, if_pos hpos, Bool.and_eq_true, decide_eq_true_eq,
    decide_eq_true_eq] at hword
  exact Int.ofNat_lt.mp hword.2

theorem ofNumber?_pos {var : Nat} (h : var + 1 < signBound) :
    ofNumber? (var + 1) = some (.pos var) := by
  have hcount : var + 1 < wordCount := Nat.lt_trans h (by decide)
  rw [ofNumber?, if_pos hcount, Width.wrap_signed64_of_lt h]
  exact ofWord?_toInt (s := .pos var) h

theorem ofNumber?_eq_some (h : ofNumber? n = some s) :
    n < wordCount ∧ s.toInt = (n : Int).bmod wordCount := by
  rw [ofNumber?, ofWord?, Width.wrap_signed64] at h
  obtain ⟨hlt, h⟩ := Option.ite_none_right_eq_some.mp h
  obtain ⟨-, h⟩ := Option.ite_none_right_eq_some.mp h
  exact ⟨hlt, toInt_of_ofInt? h⟩

theorem ofNumber?_inj {m : Nat} (hn : ofNumber? n = some s) (hm : ofNumber? m = some s) :
    n = m := by
  obtain ⟨hlt, hs⟩ := ofNumber?_eq_some hn
  obtain ⟨hlt', hs'⟩ := ofNumber?_eq_some hm
  have hmod := congrArg (· % (wordCount : Int)) (hs.symm.trans hs')
  simp only [Int.bmod_emod] at hmod
  rw [wordCount] at *
  omega

/-- A number that can be counted in words stands for a literal, unless it is 0. -/
theorem exists_ofNumber? (hpos : 0 < n) (h : n < wordCount) : ∃ s, ofNumber? n = some s := by
  have hmod : (n : Int) % wordCount = n := Int.emod_eq_of_lt (by omega) (by omega)
  have hword : isWord ((n : Int).bmod wordCount) = true ∧ (n : Int).bmod wordCount ≠ 0 := by
    rw [Int.bmod_def, hmod, isWord]
    rw [wordCount] at h ⊢
    rw [signBound]
    simp only [Bool.and_eq_true, decide_eq_true_eq]
    split <;> omega
  rw [ofNumber?, if_pos h, ofWord?, Width.wrap_signed64, if_pos hword.1, ofInt?, if_neg hword.2]
  exact ⟨_, rfl⟩

end Literal

end LiftedPlanning.Cnf
