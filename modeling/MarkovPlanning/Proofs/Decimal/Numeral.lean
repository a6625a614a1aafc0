/-
Numerals come back.

A double is written as the shortest decimal near it, in positional notation.  What is read from
that text has other digits and another exponent if there are zeros at its end, but it stands for
the same number (`exists_scientific?_positional`), and every decimal near a double is read as the
double (`nearestBits_eq`).  So a pattern of bits comes back from its numeral
(`readBits?_writeBits`), a value that is no number as the one pattern that stands for it, and
every double is read as it was written (`read?_write`).
-/
import MarkovPlanning.Proofs.Decimal.Digits
import MarkovPlanning.Proofs.Decimal.Shortest
import MarkovPlanning.Proofs.Text.Token
import Mathlib

namespace MarkovPlanning.Decimal

variable {bits : Nat}

/-! ### Decimals near a double -/

theorem exponent_le (hfinite : bits < infinityBits) : exponent bits ≤ 971 := by
  have hstored : storedExponent bits < 0x7ff := by
    rw [storedExponent, Nat.mod_eq_of_lt (hfinite.trans infinityBits_lt_signBit),
      Nat.shiftRight_eq_div_pow, Nat.div_lt_iff_lt_mul (by decide)]
    exact hfinite
  unfold exponent leastExponent
  omega

/-- Nothing near a double is out of the reach of the powers of ten. -/
theorem Near.bounds {x : ℚ} (hpos : 0 < bits) (hfinite : bits < infinityBits) (h : Near bits x) :
    (10 : ℚ) ^ (-324 : Int) ≤ x ∧ x < 10 ^ (309 : Int) := by
  have hsign := hfinite.trans infinityBits_lt_signBit
  have htwo : (0 : ℚ) < 2 ^ exponent bits := zpow_pos two_pos _
  have hleast : (2 : ℚ) ^ leastExponent ≤ 2 ^ exponent bits :=
    zpow_le_zpow_right₀ one_le_two (leastExponent_le bits)
  have hgreatest : (2 : ℚ) ^ exponent bits ≤ 2 ^ (971 : Int) :=
    zpow_le_zpow_right₀ one_le_two (exponent_le hfinite)
  have hm : (1 : ℚ) ≤ significand bits := by exact_mod_cast significand_pos hpos hsign
  have hmax : (significand bits : ℚ) + 1 ≤ 2 ^ 53 := by
    have := significand_lt bits
    rw [leadingBit_eq] at this
    exact_mod_cast this
  have hshare : (shareBelow bits : ℚ) ≤ 2 := by
    rcases shareBelow_cases bits with hshare | hshare <;> rw [hshare] <;> norm_num
  constructor
  · have hpowers : 2 ^ 1074 * 2 ≤ 10 ^ 324 := by decide +kernel
    calc (10 : ℚ) ^ (-324 : Int) = (10 ^ 324)⁻¹ := zpow_negSucc _ _
      _ ≤ (2 ^ 1074 * 2)⁻¹ := by
        rw [inv_le_inv₀ (by positivity) (by positivity)]
        exact_mod_cast hpowers
      _ = 1 / 2 * 2 ^ leastExponent := by
        rw [mul_inv, mul_comm, one_div,
          show (2 : ℚ) ^ leastExponent = (2 ^ 1074)⁻¹ from zpow_negSucc _ _]
      _ ≤ 1 / 2 * 2 ^ exponent bits := by linarith
      _ ≤ x := by
        rw [← le_div_iff₀ htwo]
        linarith [h.lower]
  · have hpowers : 2 ^ 53 * 2 ^ 971 < 10 ^ 309 := by decide +kernel
    calc x < 2 ^ 53 * 2 ^ exponent bits := by
          rw [← div_lt_iff₀ htwo]
          linarith [h.upper]
      _ ≤ 2 ^ 53 * 2 ^ (971 : Int) := by linarith
      _ < 10 ^ (309 : Int) := by exact_mod_cast hpowers

/-- The digits of a number bound it from both sides. -/
theorem toDigits_bounds {n : Nat} (hpos : 0 < n) :
    (10 : ℚ) ^ ((Nat.toDigits 10 n).length - 1 : Int) ≤ n ∧
      (n : ℚ) < 10 ^ ((Nat.toDigits 10 n).length : Int) := by
  have hlength : 0 < (Nat.toDigits 10 n).length := Nat.length_toDigits_pos
  constructor
  · obtain ⟨before, hbefore⟩ := Nat.exists_eq_succ_of_ne_zero hlength.ne'
    rw [hbefore, Nat.cast_succ, add_sub_cancel_right, zpow_natCast]
    have hle : 10 ^ before ≤ n := by
      by_contra hlt
      rcases before.eq_zero_or_pos with rfl | hbefore'
      · exact hlt hpos
      · have := (Nat.length_toDigits_le_iff (by decide) hbefore').mpr (not_le.mp hlt)
        omega
    exact_mod_cast hle
  · rw [zpow_natCast]
    exact_mod_cast (Nat.length_toDigits_le_iff (by decide) hlength).mp le_rfl

/-- **Every decimal near a double is read as it.** -/
theorem nearestBits_eq {decimal : Scientific} (hpos : 0 < bits) (hfinite : bits < infinityBits)
    (h : Near bits decimal.toRat) : decimal.nearestBits = bits := by
  obtain ⟨hlower, hupper⟩ := h.bounds hpos hfinite
  have hten : (0 : ℚ) < 10 ^ decimal.exponent := zpow_pos (by norm_num) _
  have hdigits : 0 < decimal.digits := by
    by_contra hzero
    have hzero' : decimal.toRat = 0 := by
      rw [Scientific.toRat, Nat.eq_zero_of_not_pos hzero, Nat.cast_zero, zero_mul]
    rw [hzero'] at hlower
    exact absurd hlower (not_le.mpr (zpow_pos (by norm_num) _))
  obtain ⟨hlow, hhigh⟩ := toDigits_bounds hdigits
  have hone : (1 : ℚ) < 10 := by norm_num
  have hmost : ¬400 < ((Nat.toDigits 10 decimal.digits).length : Int) + decimal.exponent := by
    intro hlt
    have hle : (10 : ℚ) ^ (309 : Int) ≤ decimal.toRat := by
      calc (10 : ℚ) ^ (309 : Int)
          ≤ 10 ^ ((Nat.toDigits 10 decimal.digits).length - 1 + decimal.exponent : Int) :=
            zpow_le_zpow_right₀ hone.le (by omega)
        _ = 10 ^ ((Nat.toDigits 10 decimal.digits).length - 1 : Int) * 10 ^ decimal.exponent :=
            zpow_add₀ (by norm_num) _ _
        _ ≤ decimal.toRat := mul_le_mul_of_nonneg_right hlow hten.le
    exact absurd hupper (not_lt.mpr hle)
  have hleast : ¬((Nat.toDigits 10 decimal.digits).length : Int) + decimal.exponent < -400 := by
    intro hlt
    have hlt' : decimal.toRat < 10 ^ (-324 : Int) := by
      calc decimal.toRat
          < 10 ^ ((Nat.toDigits 10 decimal.digits).length : Int) * 10 ^ decimal.exponent :=
            mul_lt_mul_of_pos_right hhigh hten
        _ = 10 ^ ((Nat.toDigits 10 decimal.digits).length + decimal.exponent : Int) :=
            (zpow_add₀ (by norm_num) _ _).symm
        _ ≤ 10 ^ (-324 : Int) := zpow_le_zpow_right₀ hone.le (by omega)
    exact absurd hlower (not_le.mpr hlt')
  unfold Scientific.nearestBits
  simp only [if_neg hdigits.ne', if_neg hmost, if_neg hleast]
  split
  · next n hexponent =>
      refine nearest_eq hpos hfinite one_pos ?_
      rw [Scientific.toRat, hexponent, Int.ofNat_eq_natCast, zpow_natCast] at h
      rw [Nat.pow_eq]
      push_cast
      rw [div_one]
      exact h
  · next n hexponent =>
      refine nearest_eq hpos hfinite (Nat.pow_pos (by decide)) ?_
      rw [Scientific.toRat, hexponent, zpow_negSucc, ← div_eq_mul_inv] at h
      rw [Nat.pow_eq]
      push_cast
      exact h

/-! ### Positional notation -/

/-- What follows a run of digits is cut off where the digits end. -/
theorem takeWhile_isDigit {digits : List Char} (rest : List Char) (h : AreDigits digits)
    (hrest : ∀ c ∈ rest.head?, c.isDigit = false) :
    (digits ++ rest).takeWhile Char.isDigit = digits ∧
      (digits ++ rest).dropWhile Char.isDigit = rest := by
  rw [List.takeWhile_append_of_pos h, List.dropWhile_append_of_pos h]
  cases rest with
  | nil => simp
  | cons c rest =>
      have hc : ¬c.isDigit = true := by
        rw [hrest c rfl]
        exact Bool.false_ne_true
      rw [List.takeWhile_cons_of_neg hc, List.dropWhile_cons_of_neg hc]
      simp

/-- A run of digits is read as the number it stands for. -/
theorem scientific?_digits {digits : List Char} (h : AreDigits digits) (hne : digits ≠ []) :
    scientific? digits = some { digits := ofDigits digits, exponent := 0 } := by
  obtain ⟨htake, hdrop⟩ := takeWhile_isDigit [] h (by simp)
  rw [List.append_nil] at htake hdrop
  have hempty : digits.isEmpty = false := List.isEmpty_eq_false_iff.mpr hne
  unfold scientific?
  rw [htake, hdrop]
  simp [exponent?, hempty]

/-- Digits before and after a point are read as one run, and those after the point are counted. -/
theorem scientific?_point {whole fraction : List Char} (hwhole : AreDigits whole)
    (hfraction : AreDigits fraction) (hne : whole ≠ []) :
    scientific? (whole ++ '.' :: fraction)
      = some { digits := ofDigits (whole ++ fraction), exponent := -fraction.length } := by
  obtain ⟨htake, hdrop⟩ := takeWhile_isDigit ('.' :: fraction) hwhole (by simp)
  obtain ⟨htake', hdrop'⟩ := takeWhile_isDigit [] hfraction (by simp)
  rw [List.append_nil] at htake' hdrop'
  have hempty : whole.isEmpty = false := List.isEmpty_eq_false_iff.mpr hne
  unfold scientific?
  rw [htake, hdrop]
  simp [exponent?, hempty, htake', hdrop']

/-- **What is read from a decimal in positional notation stands for the same number.** -/
theorem exists_scientific?_positional (decimal : Scientific) :
    ∃ decimal', scientific? decimal.positional = some decimal' ∧
      decimal'.toRat = decimal.toRat := by
  have hdigits := areDigits_toDigits decimal.digits
  have hne : Nat.toDigits 10 decimal.digits ≠ [] := Nat.toDigits_ne_nil
  unfold Scientific.positional
  dsimp only
  split
  · next zeros hexponent =>
      refine ⟨_, scientific?_digits (hdigits.append (areDigits_zeros zeros)) (by simp [hne]), ?_⟩
      rw [ofDigits_append_zeros, ofDigits_toDigits, Scientific.toRat, Scientific.toRat, hexponent,
        Int.ofNat_eq_natCast, zpow_natCast]
      push_cast
      rw [mul_one]
  · next n hexponent =>
      have htoRat : decimal.toRat = decimal.digits * 10 ^ (-((n + 1 : ℕ) : Int)) := by
        rw [Scientific.toRat, hexponent]
        rfl
      split
      · next hplaces =>
          -- the point stands among the digits
          set before := (Nat.toDigits 10 decimal.digits).length - (n + 1) with hbefore
          have hwhole : AreDigits ((Nat.toDigits 10 decimal.digits).take before) :=
            fun c hc => hdigits c (List.mem_of_mem_take hc)
          have hfraction : AreDigits ((Nat.toDigits 10 decimal.digits).drop before) :=
            fun c hc => hdigits c (List.mem_of_mem_drop hc)
          refine ⟨_, scientific?_point hwhole hfraction ?_, ?_⟩
          · rw [ne_eq, List.take_eq_nil_iff, not_or]
            exact ⟨by omega, hne⟩
          · have hlength : ((Nat.toDigits 10 decimal.digits).drop before).length = n + 1 := by
              rw [List.length_drop]
              omega
            rw [List.take_append_drop, ofDigits_toDigits, hlength, htoRat, Scientific.toRat]
      · next hplaces =>
          -- the point stands before zeros and the digits
          have hfraction := (areDigits_zeros
            (n + 1 - (Nat.toDigits 10 decimal.digits).length)).append hdigits
          have hlength : (List.replicate (n + 1 - (Nat.toDigits 10 decimal.digits).length) '0'
              ++ Nat.toDigits 10 decimal.digits).length = n + 1 := by
            rw [List.length_append, List.length_replicate]
            omega
          refine ⟨_, (scientific?_point (areDigits_zeros 1) hfraction (by simp) :), ?_⟩
          rw [ofDigits_zeros_append, ofDigits_zeros_append, ofDigits_toDigits, hlength, htoRat,
            Scientific.toRat]

/-- Positional notation has digits in it, and perhaps a point, but starts with a digit. -/
theorem positional_shape (decimal : Scientific) :
    (∀ c ∈ decimal.positional, c.isDigit = true ∨ c = '.') ∧
      ∃ c rest, decimal.positional = c :: rest ∧ c.isDigit = true := by
  have hdigits := areDigits_toDigits decimal.digits
  obtain ⟨first, rest, hfirst⟩ :=
    List.exists_cons_of_ne_nil (Nat.toDigits_ne_nil (n := decimal.digits) (b := 10))
  have hdigit : first.isDigit = true := hdigits first (by rw [hfirst]; exact List.mem_cons_self)
  unfold Scientific.positional
  dsimp only
  split
  · next zeros _ =>
      refine ⟨fun c hc => .inl ((hdigits.append (areDigits_zeros zeros)) c hc), first,
        rest ++ List.replicate zeros '0', ?_, hdigit⟩
      rw [hfirst, List.cons_append]
  · next n _ =>
      split
      · next hplaces =>
          obtain ⟨count, hcount⟩ := Nat.exists_eq_add_of_lt hplaces
          have htake : (Nat.toDigits 10 decimal.digits).length - (n + 1) = count + 1 := by omega
          refine ⟨fun c hc => ?_, first, rest.take count ++ '.' :: rest.drop count, ?_, hdigit⟩
          · rcases List.mem_append.mp hc with hc | hc
            · exact .inl (hdigits c (List.mem_of_mem_take hc))
            · rcases List.mem_cons.mp hc with rfl | hc
              · exact .inr rfl
              · exact .inl (hdigits c (List.mem_of_mem_drop hc))
          · rw [htake, hfirst]
            rfl
      · refine ⟨fun c hc => ?_, '0', _, rfl, rfl⟩
        rcases List.mem_cons.mp hc with rfl | hc
        · exact .inl rfl
        · rcases List.mem_cons.mp hc with rfl | hc
          · exact .inr rfl
          · exact .inl (((areDigits_zeros _).append hdigits) c hc)

/-! ### Numerals -/

/-- A text that starts with a digit is none of the words. -/
theorem readUnsigned?_of_isDigit {c : Char} {rest : List Char} (hc : c.isDigit = true) :
    readUnsigned? (c :: rest) = (scientific? (c :: rest)).map Scientific.nearestBits := by
  have hlower : c.toLower = c := by
    have hrange : c.val.toNat ≤ 57 := (Char.isDigit_iff_toNat.mp hc).2
    refine dif_neg fun hupper => ?_
    have hlow : 65 ≤ c.val.toNat := UInt32.le_iff_toNat_le.mp hupper.1
    omega
  have hword (word : String) (d : Char) (hfirst : word.toList.head? = some d)
      (hd : d.isDigit = false) : String.ofList ((c :: rest).map Char.toLower) ≠ word := by
    rintro rfl
    rw [String.toList_ofList, List.map_cons, List.head?_cons, hlower] at hfirst
    exact ne_of_isDigit hc hd (Option.some.inj hfirst)
  unfold readUnsigned?
  dsimp only
  rw [if_neg, if_neg]
  · exact hword "nan" 'n' rfl rfl
  · rintro (h | h)
    · exact hword "inf" 'i' rfl rfl h
    · exact hword "infinity" 'i' rfl rfl h

/-- What is written of the size of a double. -/
def unsigned (size : Nat) : List Char :=
  if size = infinityBits then "inf".toList
  else if size = 0 then ['0']
  else (shortest size).positional

theorem readUnsigned?_unsigned {size : Nat} (h : size ≤ infinityBits) :
    readUnsigned? (unsigned size) = some size := by
  unfold unsigned
  split
  · next heq =>
      rw [heq]
      decide
  · split
    · next heq =>
        rw [heq]
        decide
    · next hne hpos =>
        have hfinite : size < infinityBits := by omega
        obtain ⟨decimal, hread, htoRat⟩ := exists_scientific?_positional (shortest size)
        obtain ⟨-, c, rest, hshape, hc⟩ := positional_shape (shortest size)
        have hnear := near_shortest (by omega) (hfinite.trans infinityBits_lt_signBit)
        rw [← htoRat] at hnear
        rw [hshape] at hread ⊢
        rw [readUnsigned?_of_isDigit hc, hread, Option.map_some,
          nearestBits_eq (by omega) hfinite hnear]

theorem unsigned_ne_cons {size : Nat} {sign : Char} {rest : List Char}
    (hsign : sign = '-' ∨ sign = '+') : unsigned size ≠ sign :: rest := by
  have hdigit : sign.isDigit = false := by rcases hsign with rfl | rfl <;> rfl
  have hword : sign ≠ 'i' := by rcases hsign with rfl | rfl <;> decide
  unfold unsigned
  split
  · exact fun h => hword (List.cons.inj h).1.symm
  · split
    · exact fun h => ne_of_isDigit (c := '0') rfl hdigit (List.cons.inj h).1
    · obtain ⟨-, c, rest', hshape, hc⟩ := positional_shape (shortest size)
      rw [hshape]
      exact fun h => ne_of_isDigit hc hdigit (List.cons.inj h).1

/-- **A pattern of bits comes back from its numeral**, unless it stands for no number. -/
theorem readBits?_writeBits (hbits : bits < 2 * signBit) (h : bits % signBit ≤ infinityBits) :
    readBits? (writeBits bits) = some bits := by
  have hread := readUnsigned?_unsigned h
  have hwrite : writeBits bits = String.ofList
      (if signBit ≤ bits then '-' :: unsigned (bits % signBit) else unsigned (bits % signBit)) := by
    rw [writeBits, if_neg (not_lt.mpr h)]
    simp only [unsigned]
  rw [readBits?, hwrite, String.toList_ofList]
  by_cases hsign : signBit ≤ bits
  · have hsize : bits % signBit + signBit = bits := by
      rw [Nat.mod_eq_sub_mod hsign, Nat.mod_eq_of_lt (by omega)]
      omega
    rw [if_pos hsign]
    show (readUnsigned? (unsigned (bits % signBit))).map (· + signBit) = some bits
    rw [hread, Option.map_some, hsize]
  · rw [if_neg hsign]
    split
    · next heq => exact absurd heq (unsigned_ne_cons (.inl rfl))
    · next heq => exact absurd heq (unsigned_ne_cons (.inr rfl))
    · rw [hread, Nat.mod_eq_of_lt (not_le.mp hsign)]

theorem readBits?_writeBits_notANumber (h : infinityBits < bits % signBit) :
    readBits? (writeBits bits) = some notANumberBits := by
  have hwrite : writeBits bits = "NaN" := by
    rw [writeBits, if_pos h]
  rw [hwrite]
  decide

/-- The characters of numerals that are no digits. -/
def numeralMarks : List Char := ['-', '.', 'i', 'n', 'f', 'N', 'a']

theorem mem_unsigned {size : Nat} {c : Char} (h : c ∈ unsigned size) :
    c.isDigit = true ∨ c ∈ numeralMarks := by
  unfold unsigned at h
  split at h
  · have hsub : "inf".toList ⊆ numeralMarks := by simp [numeralMarks]
    exact .inr (hsub h)
  · split at h
    · obtain rfl := List.mem_singleton.mp h
      exact .inl rfl
    · rcases (positional_shape (shortest size)).1 c h with hdigit | rfl
      · exact .inl hdigit
      · exact .inr (by decide)

theorem mem_writeBits {c : Char} (h : c ∈ (writeBits bits).toList) :
    c.isDigit = true ∨ c ∈ numeralMarks := by
  unfold writeBits at h
  dsimp only at h
  split at h
  · have hsub : "NaN".toList ⊆ numeralMarks := by simp [numeralMarks]
    exact .inr (hsub h)
  · rw [String.toList_ofList] at h
    split at h
    · rcases List.mem_cons.mp h with rfl | h
      · exact .inr (by decide)
      · exact mem_unsigned h
    · exact mem_unsigned h

theorem writeBits_ne_empty (bits : Nat) : writeBits bits ≠ "" := by
  have hunsigned (size : Nat) : unsigned size ≠ [] := by
    unfold unsigned
    split
    · exact List.cons_ne_nil _ _
    · split
      · exact List.cons_ne_nil _ _
      · obtain ⟨-, c, rest, hshape, -⟩ := positional_shape (shortest size)
        rw [hshape]
        exact List.cons_ne_nil _ _
  unfold writeBits
  dsimp only
  split
  · decide
  · rw [ne_eq, String.ofList_eq_empty_iff]
    split
    · exact List.cons_ne_nil _ _
    · exact hunsigned _

/-! ### Doubles -/

open Float.Model UnpackedFloat in
/-- There is one pattern of bits for the value that is no number. -/
theorem toBits_eq_of_notANumber {x : Float} (h : infinityBits < x.toBits.toNat % signBit) :
    x.toBits.toNat = notANumberBits := by
  have hless : x.toBits.toNat % signBit < signBit := Nat.mod_lt _ (by decide)
  rw [show signBit = 2048 * 2 ^ 52 from rfl] at h hless
  rw [show infinityBits = 2047 * 2 ^ 52 from rfl] at h
  have hexponent : x.toBits.toNat / 2 ^ 52 % 2048 = 2047 := by omega
  have hfraction : x.toBits.toNat % 2 ^ 52 ≠ 0 := by omega
  have hones : @unpackExponent Format.binary64 x.toModel.toBits.toBitVec = -1#_ := by
    apply BitVec.eq_of_toNat_eq
    rw [unpackExponent_def, BitVec.extractLsb'_toNat, Nat.shiftRight_eq_div_pow]
    exact hexponent
  have hpayload : @unpackMantissa Format.binary64 x.toModel.toBits.toBitVec ≠ 0#_ := by
    intro hzero
    have hnat := congrArg BitVec.toNat hzero
    rw [unpackMantissa_def, BitVec.extractLsb'_toNat, Nat.shiftRight_zero] at hnat
    exact hfraction hnat
  exact congrArg BitVec.toNat (x.toModel.valid.eq_packedNaN hones hpayload)

/-- **Every double is read as it was written.** -/
theorem read?_write (x : Float) : Numeral.read? (Numeral.write x) = some x := by
  have hbits : x.toBits.toNat < 2 * signBit := x.toBits.toNat_lt
  have hread : readBits? (writeBits x.toBits.toNat) = some x.toBits.toNat := by
    by_cases hsize : x.toBits.toNat % signBit ≤ infinityBits
    · exact readBits?_writeBits hbits hsize
    · rw [readBits?_writeBits_notANumber (not_le.mp hsize),
        toBits_eq_of_notANumber (not_le.mp hsize)]
  show (readBits? (writeBits x.toBits.toNat)).map (fun bits => Float.ofBits (UInt64.ofNat bits))
    = some x
  rw [hread, Option.map_some, UInt64.ofNat_toNat, Float.ofBits_toBits]

/-- The numeral of a double is a token of its own. -/
theorem isToken_write (x : Float) : IsToken (Numeral.write x) := by
  refine .of_forall (writeBits_ne_empty _) fun c hc => ?_
  rcases mem_writeBits hc with hdigit | hmark
  · exact ⟨isBlank_of_isDigit hdigit, ne_of_isDigit hdigit rfl, ne_of_isDigit hdigit rfl⟩
  · have hmarks : ∀ c ∈ numeralMarks, Text.isBlank c = false ∧ c ≠ ':' ∧ c ≠ '#' := by
      simp [numeralMarks, Text.isBlank]
    exact hmarks c hmark

end MarkovPlanning.Decimal
