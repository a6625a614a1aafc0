/-
The points a tableau stands for.

With the basic columns an identity, any values of the other variables determine a
solution of the rows.  Two of them matter.  If all others are zero, every basic
variable has the side of its row: that is the basic solution, which `point` reads off.
If one other column is given a positive amount, the basic variables lose that amount
times its coefficients, which is what makes a column without positive coefficients
grow without limit.
-/
import MarkovPlanning.Proofs.Linear.Pivot
import Mathlib

namespace MarkovPlanning.Linear.Tableau

variable {K : Type} [Field K] {n m k : Nat} {t : Tableau K n m k}

/-! ### Values for the basic variables -/

/-- The point that gives the basic variables some values and all others zero. -/
def spread (t : Tableau K n m k) (values : Fin m → K) (j : Fin (n + m + k)) : K :=
  ∑ i, if t.basis.get i = j then values i else 0

theorem eval_spread (equation : Equation K (n + m + k)) (values : Fin m → K) :
    equation.eval (t.spread values)
      = ∑ i, equation.coefficient (t.basis.get i) * values i := by
  simp only [Equation.eval, spread, Finset.mul_sum, mul_ite, mul_zero]
  rw [Finset.sum_comm]
  refine Finset.sum_congr rfl fun i _ => ?_
  rw [Finset.sum_ite_eq, if_pos (Finset.mem_univ _)]

/-- A column that is not basic, or is basic with the value zero, has the value zero. -/
theorem spread_eq_zero {values : Fin m → K} {j : Fin (n + m + k)}
    (h : ∀ i, t.basis.get i = j → values i = 0) : t.spread values j = 0 := by
  refine Finset.sum_eq_zero fun i _ => ?_
  by_cases hi : t.basis.get i = j
  · rw [if_pos hi, h i hi]
  · rw [if_neg hi]

theorem eval_cost_spread {installed : Equation K (n + m + k)} (h : t.Priced installed)
    (values : Fin m → K) : t.cost.eval (t.spread values) = 0 := by
  rw [eval_spread]
  refine Finset.sum_eq_zero fun i _ => ?_
  rw [h.basic, zero_mul]

theorem spread_basis (h : t.Identity) (values : Fin m → K) (i : Fin m) :
    t.spread values (t.basis.get i) = values i := by
  unfold spread
  rw [Finset.sum_eq_single i]
  · rw [if_pos rfl]
  · intro i' _ hne
    exact if_neg fun he => hne (h.basis_injective he)
  · intro hi
    exact absurd (Finset.mem_univ i) hi

/-- The left side of a row is the value of the variable it determines. -/
theorem eval_row_spread (h : t.Identity) (values : Fin m → K) (i : Fin m) :
    (t.rows.get i).eval (t.spread values) = values i := by
  rw [eval_spread]
  simp only [h i, ite_mul, one_mul, zero_mul]
  rw [Finset.sum_ite_eq, if_pos (Finset.mem_univ _)]

variable [LinearOrder K]

theorem spread_nonneg [IsStrictOrderedRing K] {values : Fin m → K} (h : ∀ i, 0 ≤ values i)
    (j : Fin (n + m + k)) : 0 ≤ t.spread values j := by
  refine Finset.sum_nonneg fun i _ => ?_
  by_cases hi : t.basis.get i = j
  · rw [if_pos hi]
    exact h i
  · rw [if_neg hi]

/-! ### The basic solution -/

/-- Every basic variable has the side of its row. -/
def basicPoint (t : Tableau K n m k) : Fin (n + m + k) → K := t.spread fun i => (t.rows.get i).side

omit [LinearOrder K] in
theorem basicPoint_solves (h : t.Identity) : t.Solves t.basicPoint := fun i => eval_row_spread h _ i

theorem basicPoint_nonneg [IsStrictOrderedRing K] (h : t.Basic) (j : Fin (n + m + k)) :
    0 ≤ t.basicPoint j :=
  spread_nonneg h.sides j

/-- One step of the reading of the point, named so that the proofs can talk about it. -/
private def readRow (t : Tableau K n m k) (point : Vector K n) (row : Fin m) : Vector K n :=
  if h : (t.basis.get row).val < n then point.set (t.basis.get row).val (t.rows.get row).side h
  else point

omit [Field K] [LinearOrder K] in
private theorem readRow_getElem (point : Vector K n) (row : Fin m) {j : Nat} (hj : j < n) :
    (t.readRow point row)[j]
      = if (t.basis.get row).val = j then (t.rows.get row).side else point[j] := by
  unfold readRow
  by_cases h : (t.basis.get row).val < n
  · rw [dif_pos h, Vector.getElem_set]
  · rw [dif_neg h, if_neg]
    omega

omit [LinearOrder K] in
/-- A row writes the variable it determines, and no other row writes it again. -/
private theorem foldl_readRow (h : t.Identity) {j : Nat} (hj : j < n) :
    ∀ (l : List (Fin m)) (point : Vector K n),
      (l.foldl t.readRow point)[j]
        = if ∃ i ∈ l, (t.basis.get i).val = j then t.basicPoint ⟨j, by omega⟩ else point[j] := by
  intro l
  induction l with
  | nil => intro point; simp
  | cons row rest ih =>
      intro point
      rw [List.foldl_cons, ih, readRow_getElem point row hj]
      by_cases hrest : ∃ i ∈ rest, (t.basis.get i).val = j
      · obtain ⟨i, hi, hij⟩ := hrest
        rw [if_pos ⟨i, hi, hij⟩, if_pos ⟨i, List.mem_cons_of_mem _ hi, hij⟩]
      · rw [if_neg hrest]
        by_cases hrow : (t.basis.get row).val = j
        · rw [if_pos hrow, if_pos ⟨row, List.mem_cons_self, hrow⟩]
          have hcolumn : t.basis.get row = ⟨j, by omega⟩ := Fin.ext hrow
          rw [← hcolumn]
          exact (spread_basis h (fun i => (t.rows.get i).side) row).symm
        · rw [if_neg hrow, if_neg]
          intro h
          obtain ⟨i, hi, hij⟩ := h
          rcases List.mem_cons.mp hi with rfl | hi
          · exact hrow hij
          · exact hrest ⟨i, hi, hij⟩

/-- **The point read off a tableau is its basic solution.** -/
theorem point_getElem (h : t.Identity) {j : Nat} (hj : j < n) :
    t.point[j] = t.basicPoint ⟨j, by omega⟩ := by
  have hpoint : t.point = (List.finRange m).foldl t.readRow (Vector.replicate n 0) := rfl
  rw [hpoint, foldl_readRow h hj]
  by_cases hbasic : ∃ i ∈ List.finRange m, (t.basis.get i).val = j
  · rw [if_pos hbasic]
  · rw [if_neg hbasic, Vector.getElem_replicate]
    refine (spread_eq_zero fun i hi => ?_).symm
    exact absurd ⟨i, List.mem_finRange i, congrArg Fin.val hi⟩ hbasic

/-! ### Growing a column -/

/-- A column has some amount, and the basic variables what the rows then leave for them. -/
def grown (t : Tableau K n m k) (column : Fin (n + m + k)) (amount : K) : Fin (n + m + k) → K :=
  Pi.single column amount +
    t.spread fun i => (t.rows.get i).side - (t.rows.get i).coefficient column * amount

variable {column : Fin (n + m + k)}

omit [LinearOrder K] in
theorem eval_grown (equation : Equation K (n + m + k)) (amount : K) :
    equation.eval (t.grown column amount) = equation.coefficient column * amount +
      equation.eval
        (t.spread fun i => (t.rows.get i).side - (t.rows.get i).coefficient column * amount) := by
  simp only [Equation.eval, grown, Pi.add_apply, mul_add, Finset.sum_add_distrib]
  congr 1
  rw [Finset.sum_eq_single column]
  · rw [Pi.single_eq_same]
  · intro j _ hj
    rw [Pi.single_eq_of_ne hj, mul_zero]
  · intro hj
    exact absurd (Finset.mem_univ _) hj

omit [LinearOrder K] in
theorem grown_of_ne {j : Fin (n + m + k)} (hj : j ≠ column) (amount : K) :
    t.grown column amount j
      = t.spread (fun i => (t.rows.get i).side - (t.rows.get i).coefficient column * amount) j := by
  simp only [grown, Pi.add_apply, Pi.single_eq_of_ne hj, zero_add]

omit [LinearOrder K] in
theorem grown_solves (h : t.Identity) (amount : K) : t.Solves (t.grown column amount) := by
  intro i
  show (t.rows.get i).eval _ = _
  rw [eval_grown, eval_row_spread h]
  ring

theorem grown_nonneg [IsStrictOrderedRing K] (h : t.Basic)
    (hle : ∀ i, (t.rows.get i).coefficient column ≤ 0) {amount : K} (ha : 0 ≤ amount)
    (j : Fin (n + m + k)) : 0 ≤ t.grown column amount j := by
  refine add_nonneg ?_ (spread_nonneg (fun i => ?_) j)
  · by_cases hj : j = column
    · rw [hj, Pi.single_eq_same]
      exact ha
    · rw [Pi.single_eq_of_ne hj]
  · have := mul_nonpos_of_nonpos_of_nonneg (hle i) ha
    have := h.sides i
    linarith

/-- **A column whose cost is negative and whose coefficients are not positive makes the
installed costs as low as one likes.** -/
theorem exists_grown_lt [IsStrictOrderedRing K] {installed : Equation K (n + m + k)}
    (hb : t.Basic) (hp : t.Priced installed) (hcost : t.cost.coefficient column < 0)
    (bound : K) :
    ∃ amount, 0 ≤ amount ∧ installed.eval (t.grown column amount) - installed.side < bound := by
  set rate := -t.cost.coefficient column with hrate
  have hpos : 0 < rate := by linarith
  refine ⟨|t.cost.side + bound| / rate + 1, by positivity, ?_⟩
  rw [hp.eval_eq (grown_solves hb.identity _), eval_grown, eval_cost_spread hp]
  have hgain : t.cost.coefficient column * (|t.cost.side + bound| / rate + 1)
      = -|t.cost.side + bound| - rate := by
    rw [show t.cost.coefficient column = -rate by rw [hrate, neg_neg]]
    field_simp
    ring
  have := neg_abs_le (t.cost.side + bound)
  rw [hgain]
  linarith

end MarkovPlanning.Linear.Tableau
