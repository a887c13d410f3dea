import LiftedPlanning.Text.Number

/-!
# Decimal numbers in texts

Numbers in texts are read here without a bound. A number that was written in decimal is read back,
also by the reader of words if it is a word.
-/

namespace LiftedPlanning.Text

/-- Reads a natural number of any size: one or more digits. -/
def natural? (cs : List Char) : Option Nat :=
  if cs ≠ [] ∧ cs.all Char.isDigit = true then some (Nat.ofDigitChars 10 cs 0) else none

/-- Reads an integer of any size; a minus may come before the digits. -/
def integer? : List Char → Option Int
  | '-' :: cs => (natural? cs).map fun n ↦ -(n : Int)
  | cs => (natural? cs).map Int.ofNat

theorem toList_toString (n : Nat) : (toString n).toList = Nat.toDigits 10 n := by
  rw [Nat.toString_eq_ofList_toDigits, String.toList_ofList]

theorem isDigit_of_mem_toString {n : Nat} {c : Char} (h : c ∈ (toString n).toList) :
    c.isDigit = true := by
  rw [toList_toString] at h
  exact Nat.isDigit_of_mem_toDigits (by decide) (by decide) h

theorem not_mem_toString_of_isDigit {n : Nat} {c : Char} (hc : c.isDigit = false) :
    c ∉ (toString n).toList := by
  intro hm
  rw [isDigit_of_mem_toString hm] at hc
  cases hc

theorem natural?_toString (n : Nat) : natural? (toString n).toList = some n := by
  have hall : (toString n).toList.all Char.isDigit = true :=
    List.all_eq_true.mpr fun _ ↦ isDigit_of_mem_toString
  rw [toList_toString] at hall ⊢
  rw [natural?, if_pos ⟨Nat.toDigits_ne_nil, hall⟩, Nat.ofDigitChars_ten_toDigits]

theorem integer?_of_natural? {cs : List Char} {n : Nat} (h : natural? cs = some n) :
    integer? cs = some n := by
  rw [integer?.eq_def]
  split
  · rename_i rest
    simp [natural?] at h
  · rw [h]
    rfl

theorem toList_toString_negSucc (n : Nat) :
    (toString (Int.negSucc n)).toList = '-' :: (toString (n + 1)).toList :=
  String.toList_append

theorem integer?_toString (z : Int) : integer? (toString z).toList = some z := by
  cases z with
  | ofNat n => exact integer?_of_natural? (natural?_toString n)
  | negSucc n =>
    rw [toList_toString_negSucc, integer?, natural?_toString]
    rfl

theorem isDigit_or_of_mem_toString {z : Int} {c : Char} (h : c ∈ (toString z).toList) :
    c.isDigit = true ∨ c = '-' := by
  cases z with
  | ofNat n => exact .inl (isDigit_of_mem_toString h)
  | negSucc n =>
    rw [toList_toString_negSucc] at h
    exact (List.mem_cons.mp h).symm.imp_left isDigit_of_mem_toString

/-! ## Words -/

theorem le_ofDigitChars {n : Nat} {cs : List Char} : n ≤ Nat.ofDigitChars 10 cs n := by
  induction cs generalizing n with
  | nil => exact Nat.le_refl n
  | cons c cs ih =>
    rw [Nat.ofDigitChars_cons]
    exact Nat.le_trans (by omega) ih

theorem digitValue?_of_isDigit {c : Char} (h : c.isDigit = true) :
    digitValue? c = some (c.toNat - '0'.toNat) := by
  rw [Char.isDigit, Bool.and_eq_true, decide_eq_true_eq, decide_eq_true_eq] at h
  exact if_pos h

/-- Digits are read if their number is below the bound, since then all numbers on the way are. -/
theorem digitsBelow_eq_ok {bound n : Nat} {cs : List Char} (hdigits : ∀ c ∈ cs, c.isDigit = true)
    (h : Nat.ofDigitChars 10 cs n < bound) :
    digitsBelow bound n cs = .ok (Nat.ofDigitChars 10 cs n) := by
  induction cs generalizing n with
  | nil => rfl
  | cons c cs ih =>
    obtain ⟨hc, hcs⟩ := List.forall_mem_cons.mp hdigits
    rw [Nat.ofDigitChars_cons] at h ⊢
    rw [digitsBelow, digitValue?_of_isDigit hc]
    dsimp only
    rw [if_pos (Nat.lt_of_le_of_lt le_ofDigitChars h), ih hcs h]

theorem naturalBelow_toString {bound n : Nat} (h : n < bound) :
    naturalBelow bound (toString n).toList = .ok n := by
  have hdigits : ∀ c ∈ Nat.toDigits 10 n, c.isDigit = true := fun c hc ↦
    isDigit_of_mem_toString (toList_toString n ▸ hc)
  have hvalue : Nat.ofDigitChars 10 (Nat.toDigits 10 n) 0 = n := Nat.ofDigitChars_ten_toDigits
  have hread := digitsBelow_eq_ok hdigits (hvalue.symm ▸ h)
  rw [toList_toString, naturalBelow, hread, hvalue]
  exact Nat.toDigits_ne_nil

/-- **A signed word** is read back. -/
theorem readInteger?_toString {z : Int} (hlow : -(signBound : Int) ≤ z) (hhigh : z < signBound) :
    readInteger? (toString z).toList = some z := by
  cases z with
  | ofNat n =>
    -- digits come without a sign
    have hdigits : ∀ c ∈ (toString n).toList, c ≠ '-' ∧ c ≠ '+' := fun c hc ↦
      ⟨fun he ↦ absurd (he ▸ isDigit_of_mem_toString hc) (by decide),
        fun he ↦ absurd (he ▸ isDigit_of_mem_toString hc) (by decide)⟩
    have hn : n < signBound := Int.ofNat_lt.mp hhigh
    change readInteger? (toString n).toList = some (n : Int)
    rw [readInteger?.eq_def]
    split
    · rename_i heq
      exact absurd rfl (hdigits '-' (heq ▸ List.mem_cons_self)).1
    · rename_i heq
      exact absurd rfl (hdigits '+' (heq ▸ List.mem_cons_self)).2
    · rw [naturalBelow_toString hn]
      rfl
  | negSucc n =>
    have hn : n + 1 < signBound + 1 := by omega
    rw [toList_toString_negSucc, readInteger?, naturalBelow_toString hn]
    rfl

end LiftedPlanning.Text
