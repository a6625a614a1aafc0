/-
The search for the shortest decimal.

The neighbourhood of a double holds the numbers that are rounded to it, in whatever units it is
written (`holds_inUnits`).  Whatever is found on a grid is therefore near the double, and on the
finest grid something is found, because a double is further away from the ends of its
neighbourhood than one step of that grid.  So the search ends, and what it ends with is near the
double (`near_shortest`).
-/
import MarkovPlanning.Decimal.Shortest
import MarkovPlanning.Proofs.Decimal.Nearest
import Mathlib

namespace MarkovPlanning.Decimal

/-- The number that a decimal stands for. -/
def Scientific.toRat (decimal : Scientific) : ℚ := decimal.digits * 10 ^ decimal.exponent

/-! ### Neighbourhoods in units -/

namespace Neighbourhood

variable {n : Neighbourhood}

theorem inUnits_pos (hden : 0 < n.den) (exponent : Int) : 0 < (n.inUnits exponent).den := by
  unfold inUnits
  split
  · exact Nat.mul_pos hden (Nat.pow_pos (by decide))
  · exact hden

theorem closed_inUnits (exponent : Int) : (n.inUnits exponent).closed = n.closed := by
  unfold inUnits
  split <;> rfl

/-- The ends of a neighbourhood and its value are divided by the unit. -/
theorem inUnits_div (n : Neighbourhood) (exponent : Int) :
    ((n.inUnits exponent).value / (n.inUnits exponent).den : ℚ) = n.value / n.den / 10 ^ exponent ∧
    ((n.inUnits exponent).lower / (n.inUnits exponent).den : ℚ) = n.lower / n.den / 10 ^ exponent ∧
    ((n.inUnits exponent).upper / (n.inUnits exponent).den : ℚ)
      = n.upper / n.den / 10 ^ exponent := by
  unfold inUnits
  split
  · next k =>
      have hunit : (10 : ℚ) ^ Int.ofNat k = (Nat.pow 10 k : ℕ) := by
        rw [Int.ofNat_eq_natCast, zpow_natCast, Nat.pow_eq, Nat.cast_pow, Nat.cast_ofNat]
      rw [hunit, Nat.cast_mul, div_div, div_div, div_div]
      exact ⟨rfl, rfl, rfl⟩
  · next k =>
      have hunit : (10 : ℚ) ^ Int.negSucc k = ((Nat.pow 10 (k + 1) : ℕ) : ℚ)⁻¹ := by
        rw [zpow_negSucc, Nat.pow_eq, Nat.cast_pow, Nat.cast_ofNat]
      rw [hunit]
      simp only [Nat.cast_mul, div_inv_eq_mul]
      exact ⟨mul_div_right_comm _ _ _, mul_div_right_comm _ _ _, mul_div_right_comm _ _ _⟩

theorem holds_iff (hden : 0 < n.den) (point : Nat) :
    n.holds point = true ↔ (n.lower / n.den : ℚ) ≤ point ∧ point ≤ (n.upper / n.den : ℚ) ∧
      (n.closed = false → (n.lower / n.den : ℚ) < point ∧ point < (n.upper / n.den : ℚ)) := by
  have hden' : (0 : ℚ) < n.den := Nat.cast_pos.mpr hden
  rw [div_le_iff₀ hden', le_div_iff₀ hden', div_lt_iff₀ hden', lt_div_iff₀ hden']
  norm_cast
  unfold holds
  cases n.closed with
  | true => simp
  | false =>
      rw [if_neg Bool.false_ne_true, Bool.and_eq_true, decide_eq_true_eq, decide_eq_true_eq]
      exact ⟨fun h => ⟨h.1.le, h.2.le, fun _ => h⟩, fun h => h.2.2 rfl⟩

theorem holds_of_nearest?_eq_some {point : Nat} (h : n.nearest? = some point) :
    n.holds point = true := by
  unfold nearest? at h
  dsimp only at h
  split at h
  · cases h
  · next hfloor _ =>
      obtain rfl := Option.some.inj h
      exact hfloor
  · next _ hceiling =>
      obtain rfl := Option.some.inj h
      exact hceiling
  · next hfloor hceiling =>
      obtain rfl := Option.some.inj h
      split
      · exact hfloor
      · exact hceiling

/-- Something is found between ends that are at least one unit away from the value. -/
theorem nearest?_ne_none (hden : 0 < n.den) (hlower : (n.lower / n.den : ℚ) + 1 ≤ n.value / n.den)
    (hupper : (n.value / n.den : ℚ) < n.upper / n.den) : n.nearest? ≠ none := by
  have hfloor : n.holds (n.value / n.den) = true := by
    have hle : ((n.value / n.den : ℕ) : ℚ) ≤ n.value / n.den := Nat.cast_div_le
    have hlt : (n.value / n.den : ℚ) < (n.value / n.den : ℕ) + 1 := by
      rw [div_lt_iff₀ (Nat.cast_pos.mpr hden)]
      exact_mod_cast Nat.lt_mul_of_div_lt (Nat.lt_succ_self (n.value / n.den)) hden
    rw [holds_iff hden]
    exact ⟨by linarith, by linarith, fun _ => ⟨by linarith, by linarith⟩⟩
  intro hnone
  unfold nearest? at hnone
  simp only [hfloor] at hnone
  split at hnone
  · next heq _ => cases heq
  · cases hnone
  · cases hnone
  · cases hnone

end Neighbourhood

/-! ### The neighbourhood of a double -/

variable {bits : Nat}

theorem shareBelow_cases (bits : Nat) : shareBelow bits = 1 ∨ shareBelow bits = 2 := by
  unfold shareBelow
  split
  · exact .inl rfl
  · exact .inr rfl

theorem neighbourhood_pos (bits : Nat) : 0 < (neighbourhood bits).den :=
  scaleDown_pos one_pos _

/-- A double and the ends of its neighbourhood. -/
theorem neighbourhood_div (hpos : 0 < bits) (h : bits < signBit) :
    ((neighbourhood bits).value / (neighbourhood bits).den : ℚ)
      = significand bits * 2 ^ exponent bits ∧
    ((neighbourhood bits).lower / (neighbourhood bits).den : ℚ)
      = (significand bits - shareBelow bits / 4) * 2 ^ exponent bits ∧
    ((neighbourhood bits).upper / (neighbourhood bits).den : ℚ)
      = (significand bits + 1 / 2) * 2 ^ exponent bits := by
  have hquarter : ((scaleDown 1 1 (2 - exponent bits)).1 : ℚ)
      / (scaleDown 1 1 (2 - exponent bits)).2 = 2 ^ exponent bits / 4 := by
    rw [scaleDown_div, zpow_sub₀ two_ne_zero]
    norm_num
  have hshare : shareBelow bits ≤ 4 * significand bits := by
    have := significand_pos hpos h
    have := shareBelow_cases bits
    omega
  have hvalue : (neighbourhood bits).value
      = 4 * significand bits * (scaleDown 1 1 (2 - exponent bits)).1 := rfl
  have hlower : (neighbourhood bits).lower
      = (4 * significand bits - shareBelow bits) * (scaleDown 1 1 (2 - exponent bits)).1 := rfl
  have hupper : (neighbourhood bits).upper
      = (4 * significand bits + 2) * (scaleDown 1 1 (2 - exponent bits)).1 := rfl
  have hden : (neighbourhood bits).den = (scaleDown 1 1 (2 - exponent bits)).2 := rfl
  rw [hvalue, hlower, hupper, hden]
  push_cast [hshare]
  rw [mul_div_assoc, mul_div_assoc, mul_div_assoc, hquarter]
  refine ⟨by ring, by ring, by ring⟩

theorem closed_neighbourhood : (neighbourhood bits).closed = false ↔ significand bits % 2 = 1 := by
  have hclosed : (neighbourhood bits).closed = decide (significand bits % 2 = 0) := rfl
  rw [hclosed, decide_eq_false_iff_not]
  omega

/-- **A neighbourhood holds the numbers that are rounded to the double.** -/
theorem holds_inUnits (hpos : 0 < bits) (h : bits < signBit) (exponent : Int) (point : Nat) :
    ((neighbourhood bits).inUnits exponent).holds point = true
      ↔ Near bits (point * 10 ^ exponent) := by
  obtain ⟨-, hlower, hupper⟩ := neighbourhood_div hpos h
  obtain ⟨-, hlower', hupper'⟩ := (neighbourhood bits).inUnits_div exponent
  have hten : (0 : ℚ) < 10 ^ exponent := zpow_pos (by norm_num) _
  have htwo : (0 : ℚ) < 2 ^ Decimal.exponent bits := zpow_pos two_pos _
  rw [Neighbourhood.holds_iff (Neighbourhood.inUnits_pos (neighbourhood_pos bits) exponent),
    Neighbourhood.closed_inUnits, closed_neighbourhood, hlower', hupper', hlower, hupper,
    div_le_iff₀ hten, le_div_iff₀ hten, div_lt_iff₀ hten, lt_div_iff₀ hten, ← le_div_iff₀ htwo,
    ← div_le_iff₀ htwo, ← lt_div_iff₀ htwo, ← div_lt_iff₀ htwo]
  exact ⟨fun ⟨h₁, h₂, h₃⟩ => ⟨h₁, h₂, h₃⟩, fun ⟨h₁, h₂, h₃⟩ => ⟨h₁, h₂, h₃⟩⟩

/-! ### The search -/

theorem near_of_onGrid? {exponent : Int} {decimal : Scientific} (hpos : 0 < bits)
    (h : bits < signBit) (hfound : (neighbourhood bits).onGrid? exponent = some decimal) :
    Near bits decimal.toRat := by
  obtain ⟨point, hpoint, rfl⟩ := Option.map_eq_some_iff.mp hfound
  exact (holds_inUnits hpos h exponent point).mp (Neighbourhood.holds_of_nearest?_eq_some hpoint)

/-- A double is at least one step of the finest grid away from the ends of its neighbourhood. -/
theorem onGrid?_finest (hpos : 0 < bits) (h : bits < signBit) :
    (neighbourhood bits).onGrid? finest ≠ none := by
  obtain ⟨hvalue, hlower, hupper⟩ := neighbourhood_div hpos h
  obtain ⟨hvalue', hlower', hupper'⟩ := (neighbourhood bits).inUnits_div finest
  have hten : (0 : ℚ) < 10 ^ finest := zpow_pos (by norm_num) _
  have htwo : (0 : ℚ) < 2 ^ exponent bits := zpow_pos two_pos _
  have hshare : (1 : ℚ) ≤ shareBelow bits := by
    rcases shareBelow_cases bits with hshare | hshare <;> rw [hshare] <;> norm_num
  have hstep : (10 : ℚ) ^ finest ≤ 1 / 4 * 2 ^ exponent bits := by
    have hleast : (2 : ℚ) ^ leastExponent ≤ 2 ^ exponent bits :=
      zpow_le_zpow_right₀ one_le_two (leastExponent_le bits)
    have hfinest : (10 : ℚ) ^ finest ≤ 1 / 4 * 2 ^ leastExponent := by
      have hpowers : 2 ^ 1074 * 4 ≤ 10 ^ 324 := by decide +kernel
      have hten' : (10 : ℚ) ^ finest = (10 ^ 324)⁻¹ := zpow_negSucc _ _
      have htwo' : (2 : ℚ) ^ leastExponent = (2 ^ 1074)⁻¹ := zpow_negSucc _ _
      rw [hten', htwo', one_div, ← mul_inv, mul_comm, inv_le_inv₀ (by positivity) (by positivity)]
      exact_mod_cast hpowers
    linarith
  rw [Neighbourhood.onGrid?, ne_eq, Option.map_eq_none_iff]
  refine Neighbourhood.nearest?_ne_none (Neighbourhood.inUnits_pos (neighbourhood_pos bits) finest)
    ?_ ?_
  · rw [hvalue', hlower', hvalue, hlower, div_add_one hten.ne', div_le_div_iff_of_pos_right hten]
    nlinarith
  · rw [hvalue', hupper', hvalue, hupper, div_lt_div_iff_of_pos_right hten]
    linarith

/-- **The search ends with a decimal that is near the double.** -/
theorem near_shortest (hpos : 0 < bits) (h : bits < signBit) :
    Near bits (shortest bits).toRat := by
  have hfinest : ∃ step ∈ List.range (coarsest + finest.natAbs + 1),
      ((neighbourhood bits).onGrid? (coarsest - step)).isSome := by
    refine ⟨coarsest + finest.natAbs, List.mem_range.mpr (Nat.lt_succ_self _), ?_⟩
    exact Option.isSome_iff_ne_none.mpr (onGrid?_finest hpos h)
  unfold shortest
  dsimp only
  cases hfound : (List.range (coarsest + finest.natAbs + 1)).findSome?
      fun (step : Nat) => (neighbourhood bits).onGrid? (coarsest - step) with
  | some decimal =>
      obtain ⟨step, -, hstep⟩ := List.exists_of_findSome?_eq_some hfound
      exact near_of_onGrid? hpos h hstep
  | none =>
      obtain ⟨step, hstep, hsome⟩ := hfinest
      rw [List.findSome?_eq_none_iff.mp hfound step hstep] at hsome
      cases hsome

end MarkovPlanning.Decimal
