/-
Digits.

The digits that core writes for a natural number read back to it (`ofDigits_toDigits`), zeros
before them change nothing and zeros after them multiply by ten.  A whole number is therefore
read as it was written, as long as it is not greater than what is read at all
(`whole?_toString`).
-/
import MarkovPlanning.Decimal.Numeral
import MarkovPlanning.Text.Blank
import Mathlib

namespace MarkovPlanning.Decimal

/-! ### Digits and what they stand for -/

theorem ofDigits_eq_ofDigitChars (digits : List Char) :
    ofDigits digits = Nat.ofDigitChars 10 digits 0 := by
  unfold ofDigits
  rw [Nat.ofDigitChars_eq_foldl]
  simp only [Nat.mul_comm 10]

/-- **The digits of a number stand for it.** -/
@[simp]
theorem ofDigits_toDigits (n : Nat) : ofDigits (Nat.toDigits 10 n) = n := by
  rw [ofDigits_eq_ofDigitChars, Nat.ofDigitChars_ten_toDigits]

theorem ofDigits_zeros_append (zeros : Nat) (digits : List Char) :
    ofDigits (List.replicate zeros '0' ++ digits) = ofDigits digits := by
  rw [ofDigits_eq_ofDigitChars, Nat.ofDigitChars_append, Nat.ofDigitChars_replicate_zero,
    Nat.mul_zero, ofDigits_eq_ofDigitChars]

theorem ofDigits_append_zeros (digits : List Char) (zeros : Nat) :
    ofDigits (digits ++ List.replicate zeros '0') = ofDigits digits * 10 ^ zeros := by
  rw [ofDigits_eq_ofDigitChars, Nat.ofDigitChars_append, Nat.ofDigitChars_replicate_zero,
    ← ofDigits_eq_ofDigitChars, Nat.mul_comm]

/-! ### Runs of digits -/

/-- Characters that are digits throughout. -/
def AreDigits (text : List Char) : Prop := ∀ c ∈ text, c.isDigit = true

theorem areDigits_toDigits (n : Nat) : AreDigits (Nat.toDigits 10 n) :=
  fun _ hc => Nat.isDigit_of_mem_toDigits (by decide) (le_refl 10) hc

theorem areDigits_zeros (zeros : Nat) : AreDigits (List.replicate zeros '0') := by
  intro c hc
  obtain rfl := List.eq_of_mem_replicate hc
  rfl

theorem AreDigits.append {left right : List Char} (hleft : AreDigits left)
    (hright : AreDigits right) : AreDigits (left ++ right) := by
  intro c hc
  exact (List.mem_append.mp hc).elim (hleft c) (hright c)

/-- A digit is no other kind of character. -/
theorem ne_of_isDigit {c d : Char} (hc : c.isDigit = true) (hd : d.isDigit = false) : c ≠ d := by
  rintro rfl
  exact Bool.false_ne_true (hd.symm.trans hc)

/-- A digit is not a blank. -/
theorem isBlank_of_isDigit {c : Char} (hc : c.isDigit = true) : Text.isBlank c = false := by
  have hval : 48 ≤ c.val.toNat ∧ c.val.toNat ≤ 57 := Char.isDigit_iff_toNat.mp hc
  simp only [Text.isBlank, Bool.or_eq_false_iff, Bool.and_eq_false_iff, decide_eq_false_iff_not,
    beq_eq_false_iff_ne, ne_eq, ← UInt32.toNat_inj, UInt32.le_iff_toNat_le, UInt32.reduceToNat]
  omega

/-! ### Whole numbers -/

theorem digits?_toDigits (n : Nat) : digits? (Nat.toDigits 10 n) = some n := by
  have hne : (Nat.toDigits 10 n).isEmpty = false :=
    List.isEmpty_eq_false_iff.mpr Nat.toDigits_ne_nil
  have hall : (Nat.toDigits 10 n).all Char.isDigit = true :=
    List.all_eq_true.mpr (areDigits_toDigits n)
  rw [digits?, hne, hall, ofDigits_toDigits]
  rfl

/-- **A whole number is read as it was written.** -/
theorem whole?_toString {n : Nat} (h : n ≤ greatestWhole) : whole? (toString n) = some n := by
  unfold whole?
  rw [Nat.toString_eq_repr, Nat.toList_repr]
  split
  · next rest heq =>
      -- a plus sign is no digit
      have hplus : '+' ∈ Nat.toDigits 10 n := heq ▸ List.mem_cons_self
      exact absurd (areDigits_toDigits n '+' hplus) (by decide)
  · dsimp only
    rw [digits?_toDigits]
    simp [h]

end MarkovPlanning.Decimal
