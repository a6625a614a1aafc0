/-
The numbers that are nearest to a double.

A quotient is rounded at the exponent that leaves it a significand of 53 bits, or at the least
exponent if it is smaller than that.  A quotient that lies around a double, no further away than
halfway to the next one, is rounded to that double (`nearest_eq`).  Mostly it is rounded at the
exponent of the double.  But below a power of two the doubles lie twice as close, and a quotient
that comes up to one from below is rounded at the smaller exponent and carried over.

Everything is compared as a rational number; the definitions only multiply and divide natural
numbers.
-/
import MarkovPlanning.Decimal.Binary64
import Mathlib

namespace MarkovPlanning.Decimal

/-! ### Quotients -/

variable {num den : Nat}

theorem leadingBit_eq : leadingBit = 2 ^ 52 := by decide

theorem scaleDown_pos (hden : 0 < den) (e : Int) : 0 < (scaleDown num den e).2 := by
  unfold scaleDown
  split
  · rw [Nat.shiftLeft_eq]
    positivity
  · exact hden

theorem scaleDown_div (num den : Nat) (e : Int) :
    ((scaleDown num den e).1 : ℚ) / (scaleDown num den e).2 = num / den / 2 ^ e := by
  unfold scaleDown
  split
  · next n =>
      rw [Nat.shiftLeft_eq, Int.ofNat_eq_natCast, zpow_natCast]
      push_cast
      rw [div_div]
  · next n =>
      rw [Nat.shiftLeft_eq, zpow_negSucc]
      push_cast
      rw [div_inv_eq_mul, mul_div_right_comm]

/-! ### Rounding at an exponent -/

/-- A quotient between the halves around a natural number is rounded to it.  The halves
themselves are rounded to even numbers. -/
theorem roundHalfEven_eq {m : Nat} (hden : 0 < den) (hlow : (m : ℚ) - 1 / 2 ≤ num / den)
    (hhigh : (num : ℚ) / den ≤ m + 1 / 2)
    (hodd : m % 2 = 1 → (m : ℚ) - 1 / 2 < num / den ∧ (num : ℚ) / den < m + 1 / 2) :
    roundHalfEven num den = m := by
  have hden' : (0 : ℚ) < den := Nat.cast_pos.mpr hden
  rw [le_div_iff₀ hden'] at hlow
  rw [div_le_iff₀ hden'] at hhigh
  rw [lt_div_iff₀ hden', div_lt_iff₀ hden'] at hodd
  have hlow' : 2 * (m * den) ≤ 2 * num + den := by
    have : (2 * (m * den) : ℚ) ≤ 2 * num + den := by linarith
    exact_mod_cast this
  have hhigh' : 2 * num ≤ 2 * (m * den) + den := by
    have : (2 * num : ℚ) ≤ 2 * (m * den) + den := by linarith
    exact_mod_cast this
  have hodd' : m % 2 = 1 → 2 * (m * den) < 2 * num + den ∧ 2 * num < 2 * (m * den) + den := by
    intro hm
    obtain ⟨hl, hh⟩ := hodd hm
    constructor
    · have : (2 * (m * den) : ℚ) < 2 * num + den := by linarith
      exact_mod_cast this
    · have : (2 * num : ℚ) < 2 * (m * den) + den := by linarith
      exact_mod_cast this
  have hsplit : num = den * (num / den) + num % den := (Nat.div_add_mod num den).symm
  have hrest : num % den < den := Nat.mod_lt _ hden
  unfold roundHalfEven
  generalize num / den = whole at hsplit ⊢
  generalize num % den = rest at hsplit hrest ⊢
  subst hsplit
  -- the whole part is the number, or one less
  have hwhole : whole = m ∨ whole + 1 = m := by
    have hle : whole ≤ m := by
      by_contra hlt
      have : (m + 1) * den ≤ whole * den := Nat.mul_le_mul_right den (not_le.mp hlt)
      rw [Nat.add_mul, Nat.one_mul, Nat.mul_comm whole] at this
      omega
    have hge : m ≤ whole + 1 := by
      by_contra hlt
      have : (whole + 2) * den ≤ m * den := Nat.mul_le_mul_right den (not_le.mp hlt)
      rw [Nat.add_mul, Nat.mul_comm whole] at this
      omega
    omega
  rcases hwhole with rfl | rfl
  · rw [Nat.mul_comm whole] at hlow' hhigh' hodd'
    have := fun hm => (hodd' hm).2
    dsimp only
    split
    · rfl
    · split <;> omega
  · rw [Nat.add_mul, Nat.one_mul, Nat.mul_comm whole] at hlow' hhigh' hodd'
    have := fun hm => (hodd' hm).1
    dsimp only
    split
    · omega
    · split <;> omega

/-! ### The exponent -/

theorem log2_bounds (hnum : 0 < num) (hden : 0 < den) :
    (2 : ℚ) ^ ((num.log2 : Int) - den.log2 - 1) < num / den ∧
      (num : ℚ) / den < 2 ^ ((num.log2 : Int) - den.log2 + 1) := by
  have hden' : (0 : ℚ) < den := Nat.cast_pos.mpr hden
  have hnumLow : (2 : ℚ) ^ num.log2 ≤ num := by exact_mod_cast Nat.log2_self_le hnum.ne'
  have hnumHigh : (num : ℚ) < 2 ^ (num.log2 + 1) := by exact_mod_cast Nat.lt_log2_self
  have hdenLow : (2 : ℚ) ^ den.log2 ≤ den := by exact_mod_cast Nat.log2_self_le hden.ne'
  have hdenHigh : (den : ℚ) < 2 ^ (den.log2 + 1) := by exact_mod_cast Nat.lt_log2_self
  have htwo : (2 : ℚ) ≠ 0 := two_ne_zero
  have hlow : (2 : ℚ) ^ ((num.log2 : Int) - den.log2 - 1) = 2 ^ num.log2 / 2 ^ (den.log2 + 1) := by
    rw [sub_sub, zpow_sub₀ htwo, ← Nat.cast_succ, zpow_natCast, zpow_natCast]
  have hhigh : (2 : ℚ) ^ ((num.log2 : Int) - den.log2 + 1) = 2 ^ (num.log2 + 1) / 2 ^ den.log2 := by
    rw [sub_add_eq_add_sub, zpow_sub₀ htwo, ← Nat.cast_succ, zpow_natCast, zpow_natCast]
  rw [hlow, hhigh]
  constructor
  · exact div_lt_div₀' hnumLow hdenHigh (Nat.cast_pos.mpr hnum) hden'
  · exact div_lt_div₀ hnumHigh hdenLow (by positivity) (by positivity)

/-- **The exponent at which a quotient is rounded** leaves it a significand of 53 bits, or it is
the least. -/
theorem exponentFor_eq {e : Int} (hnum : 0 < num) (hden : 0 < den) (hleast : leastExponent ≤ e)
    (hlow : leastExponent < e → (2 : ℚ) ^ 52 * 2 ^ e ≤ num / den)
    (hhigh : (num : ℚ) / den < 2 ^ 53 * 2 ^ e) : exponentFor num den = e := by
  have htwo : (2 : ℚ) ≠ 0 := two_ne_zero
  obtain ⟨hbelow, habove⟩ := log2_bounds hnum hden
  have hhigh' : (num : ℚ) / den < 2 ^ (53 + e) := by
    rwa [zpow_add₀ htwo, zpow_ofNat]
  have hupper : (num.log2 : Int) - den.log2 - 1 < 53 + e :=
    (zpow_lt_zpow_iff_right₀ one_lt_two).mp (hbelow.trans hhigh')
  have hlower : leastExponent < e → 52 + e < (num.log2 : Int) - den.log2 + 1 := by
    intro hlt
    have hlow' : (2 : ℚ) ^ (52 + e) ≤ num / den := by
      rw [zpow_add₀ htwo, zpow_ofNat]
      exact hlow hlt
    exact (zpow_lt_zpow_iff_right₀ one_lt_two).mp (hlow'.trans_lt habove)
  -- the first guess is right, or one too small
  have hfits (guess : Int) : (scaleDown num den guess).1 / (scaleDown num den guess).2
        < 2 * leadingBit ↔ (num : ℚ) / den < 2 ^ 53 * 2 ^ guess := by
    have hpos : 0 < (scaleDown num den guess).2 := scaleDown_pos hden guess
    rw [Nat.div_lt_iff_lt_mul hpos, ← div_lt_iff₀ (zpow_pos two_pos guess), ← scaleDown_div,
      div_lt_iff₀ (Nat.cast_pos.mpr hpos), leadingBit_eq]
    norm_cast
  unfold exponentFor
  by_cases hguess : max ((num.log2 : Int) - den.log2 - 53) leastExponent = e
  · simp only [hguess]
    exact if_pos ((hfits e).mpr hhigh)
  · have hguess' : max ((num.log2 : Int) - den.log2 - 53) leastExponent = e - 1 := by omega
    have hlt : leastExponent < e := by omega
    simp only [hguess']
    rw [if_neg, sub_add_cancel]
    rw [hfits, not_lt]
    calc (2 : ℚ) ^ 53 * 2 ^ (e - 1) = 2 ^ 52 * 2 ^ e := by
          rw [zpow_sub_one₀ htwo]
          ring
      _ ≤ (num : ℚ) / den := hlow hlt

/-- A quotient that is rounded to a significand at its exponent. -/
theorem nearest_of_exponentFor {e : Int} {m : Nat} (hnum : 0 < num) (hden : 0 < den)
    (he : exponentFor num den = e) (hlow : (m : ℚ) - 1 / 2 ≤ num / den / 2 ^ e)
    (hhigh : (num : ℚ) / den / 2 ^ e ≤ m + 1 / 2)
    (hodd : m % 2 = 1 →
      (m : ℚ) - 1 / 2 < num / den / 2 ^ e ∧ (num : ℚ) / den / 2 ^ e < m + 1 / 2) :
    nearest num den = min ((e - leastExponent).toNat * leadingBit + m) infinityBits := by
  rw [← scaleDown_div] at hlow hhigh hodd
  have hround := roundHalfEven_eq (scaleDown_pos hden e) hlow hhigh hodd
  rw [nearest, if_neg hnum.ne']
  simp only [he, hround]

/-! ### Patterns of bits -/

variable {bits : Nat}

theorem leastExponent_le (bits : Nat) : leastExponent ≤ exponent bits := by
  unfold exponent
  omega

theorem significand_lt (bits : Nat) : significand bits < 2 * leadingBit := by
  have hfraction : bits % leadingBit < leadingBit := Nat.mod_lt _ (by decide)
  unfold significand
  dsimp only
  split <;> omega

/-- There is a leading one unless the exponent is the least. -/
theorem leadingBit_le_significand (h : leastExponent < exponent bits) :
    leadingBit ≤ significand bits := by
  have hstored : storedExponent bits ≠ 0 := by
    intro hzero
    rw [exponent, hzero] at h
    omega
  rw [significand, if_neg hstored]
  exact Nat.le_add_left _ _

/-- The patterns of the positive doubles count upwards. -/
theorem exponent_significand (h : bits < signBit) :
    (exponent bits - leastExponent).toNat * leadingBit + significand bits = bits := by
  have hstored : storedExponent bits = bits / leadingBit := by
    rw [storedExponent, Nat.mod_eq_of_lt h, Nat.shiftRight_eq_div_pow, leadingBit_eq]
    rfl
  have hexponent : (exponent bits - leastExponent).toNat = storedExponent bits - 1 := by
    unfold exponent
    omega
  have hsplit : leadingBit * (bits / leadingBit) + bits % leadingBit = bits :=
    Nat.div_add_mod _ _
  rw [hexponent, significand]
  split
  · next hzero =>
      rw [hzero, Nat.zero_sub, Nat.zero_mul, Nat.zero_add]
      rw [← hstored, hzero, Nat.mul_zero, Nat.zero_add] at hsplit
      exact hsplit
  · next hne =>
      obtain ⟨before, hbefore⟩ := Nat.exists_eq_succ_of_ne_zero hne
      rw [← hstored, hbefore, Nat.mul_succ, Nat.mul_comm] at hsplit
      rw [hbefore, Nat.succ_sub_one]
      omega

theorem significand_pos (hpos : 0 < bits) (h : bits < signBit) : 0 < significand bits := by
  by_contra hzero
  have hsignificand : significand bits = 0 := by omega
  have hleast : exponent bits = leastExponent := by
    by_contra hne
    have := leadingBit_le_significand (lt_of_le_of_ne (leastExponent_le bits) (Ne.symm hne))
    rw [hsignificand] at this
    exact absurd this (by decide)
  have hbits := exponent_significand h
  rw [hsignificand, hleast, sub_self, Int.toNat_zero, Nat.zero_mul] at hbits
  omega

theorem infinityBits_lt_signBit : infinityBits < signBit := by decide

/-- How much of the distance to the next double below belongs to a double: half of it, which is a
quarter of the distance to the next one above if the next one below is twice as close. -/
def shareBelow (bits : Nat) : Nat :=
  if significand bits = leadingBit ∧ leastExponent < exponent bits then 1 else 2

/-- The numbers that are rounded to a positive double. -/
structure Near (bits : Nat) (x : ℚ) : Prop where
  lower : (significand bits - shareBelow bits / 4 : ℚ) ≤ x / 2 ^ exponent bits
  upper : x / 2 ^ exponent bits ≤ significand bits + 1 / 2
  odd : significand bits % 2 = 1 →
    (significand bits - shareBelow bits / 4 : ℚ) < x / 2 ^ exponent bits ∧
      x / 2 ^ exponent bits < significand bits + 1 / 2

/-! ### Rounding to a double -/

theorem num_pos_of_near (hpos : 0 < bits) (hsign : bits < signBit)
    (h : Near bits ((num : ℚ) / den)) : 0 < num := by
  have hm : (1 : ℚ) ≤ significand bits := by exact_mod_cast significand_pos hpos hsign
  have hshare : (shareBelow bits : ℚ) ≤ 2 := by
    unfold shareBelow
    split <;> norm_num
  have hlower : (0 : ℚ) < num / den / 2 ^ exponent bits := by linarith [h.lower]
  by_contra hzero
  obtain rfl : num = 0 := by omega
  simp at hlower

/-- A quotient that comes up to a power of two from below is rounded at the smaller exponent, to
twice the significand, and carried over. -/
private theorem nearest_eq_of_carry (hfinite : bits < infinityBits) (hnum : 0 < num)
    (hden : 0 < den) (h : Near bits (num / den)) (hleading : significand bits = leadingBit)
    (hleast : leastExponent < exponent bits)
    (hbelow : (num : ℚ) / den / 2 ^ exponent bits < significand bits) :
    nearest num den = bits := by
  have hbits := exponent_significand (hfinite.trans infinityBits_lt_signBit)
  have hshare : shareBelow bits = 1 := if_pos ⟨hleading, hleast⟩
  have hlower := h.lower
  rw [hshare, Nat.cast_one, hleading, leadingBit_eq] at hlower
  rw [hleading, leadingBit_eq] at hbelow
  push_cast at hlower hbelow
  have hsmaller : (0 : ℚ) < 2 ^ (exponent bits - 1) := zpow_pos two_pos _
  have hdouble : (num : ℚ) / den / 2 ^ (exponent bits - 1)
      = 2 * (num / den / 2 ^ exponent bits) := by
    have hhalf : (2 : ℚ) ^ exponent bits = 2 * 2 ^ (exponent bits - 1) := by
      rw [zpow_sub_one₀ two_ne_zero]
      ring
    rw [hhalf]
    field_simp
  have he : exponentFor num den = exponent bits - 1 := by
    refine exponentFor_eq hnum hden (by omega) (fun _ => ?_) ?_
    · rw [← le_div_iff₀ hsmaller, hdouble]
      linarith
    · rw [← div_lt_iff₀ hsmaller, hdouble]
      linarith
  have hround : nearest num den
      = min ((exponent bits - 1 - leastExponent).toNat * leadingBit + 2 * leadingBit)
        infinityBits := by
    refine nearest_of_exponentFor hnum hden he ?_ ?_ fun hodd => ?_
    · rw [hdouble, leadingBit_eq]
      push_cast
      linarith
    · rw [hdouble, leadingBit_eq]
      push_cast
      linarith
    · omega
  have hexponent : (exponent bits - leastExponent).toNat
      = (exponent bits - 1 - leastExponent).toNat + 1 := by omega
  rw [hexponent, Nat.add_mul, Nat.one_mul, hleading] at hbits
  rw [hround, Nat.two_mul, ← Nat.add_assoc, hbits]
  exact min_eq_left hfinite.le

/-- Any other quotient is at most half below the significand, and has the leading one if the
double has it. -/
private theorem Near.lower_of_not_carry {x : ℚ} (h : Near bits x)
    (hcarry : ¬(significand bits = leadingBit ∧ leastExponent < exponent bits ∧
      x / 2 ^ exponent bits < significand bits)) :
    (significand bits - 1 / 2 : ℚ) ≤ x / 2 ^ exponent bits ∧
      (leastExponent < exponent bits → (2 : ℚ) ^ 52 ≤ x / 2 ^ exponent bits) ∧
      (significand bits % 2 = 1 → (significand bits - 1 / 2 : ℚ) < x / 2 ^ exponent bits) := by
  have hlower := h.lower
  by_cases hpower : significand bits = leadingBit ∧ leastExponent < exponent bits
  · have hge : (significand bits : ℚ) ≤ x / 2 ^ exponent bits :=
      not_lt.mp fun hlt => hcarry ⟨hpower.1, hpower.2, hlt⟩
    refine ⟨by linarith, fun _ => ?_, fun _ => by linarith⟩
    rw [hpower.1, leadingBit_eq] at hge
    exact_mod_cast hge
  · have hshare : (shareBelow bits : ℚ) / 4 = 1 / 2 := by
      rw [shareBelow, if_neg hpower]
      norm_num
    rw [hshare] at hlower
    refine ⟨hlower, fun hleast => ?_, fun hodd => ?_⟩
    · have hgt : leadingBit + 1 ≤ significand bits :=
        lt_of_le_of_ne (leadingBit_le_significand hleast) fun heq => hpower ⟨heq.symm, hleast⟩
      rw [leadingBit_eq] at hgt
      have hgt' : (2 : ℚ) ^ 52 + 1 ≤ significand bits := by exact_mod_cast hgt
      linarith
    · have := (h.odd hodd).1
      rwa [hshare] at this

/-- **A quotient near a double is rounded to it.** -/
theorem nearest_eq (hpos : 0 < bits) (hfinite : bits < infinityBits) (hden : 0 < den)
    (h : Near bits (num / den)) : nearest num den = bits := by
  have hsign := hfinite.trans infinityBits_lt_signBit
  have hnum := num_pos_of_near hpos hsign h
  by_cases hcarry : significand bits = leadingBit ∧ leastExponent < exponent bits ∧
      (num : ℚ) / den / 2 ^ exponent bits < significand bits
  · exact nearest_eq_of_carry hfinite hnum hden h hcarry.1 hcarry.2.1 hcarry.2.2
  · obtain ⟨hlow, hleast, hodd⟩ := h.lower_of_not_carry hcarry
    have htwo : (0 : ℚ) < 2 ^ exponent bits := zpow_pos two_pos _
    have hmax : (significand bits : ℚ) + 1 ≤ 2 ^ 53 := by
      have := significand_lt bits
      rw [leadingBit_eq] at this
      exact_mod_cast this
    have he : exponentFor num den = exponent bits := by
      refine exponentFor_eq hnum hden (leastExponent_le bits) (fun hlt => ?_) ?_
      · rw [← le_div_iff₀ htwo]
        exact hleast hlt
      · rw [← div_lt_iff₀ htwo]
        linarith [h.upper]
    rw [nearest_of_exponentFor hnum hden he hlow h.upper fun hm => ⟨hodd hm, (h.odd hm).2⟩,
      exponent_significand hsign]
    exact min_eq_left hfinite.le

end MarkovPlanning.Decimal
