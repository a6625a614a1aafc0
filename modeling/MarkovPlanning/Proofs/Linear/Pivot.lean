/-
What pivoting keeps.

The rows of a tableau span a space of equations, and a pivot replaces them by other
rows that span the same space: the row that leaves is scaled, and multiples of it are
taken away from the others.  So no pivot changes which points satisfy the rows, and the
costs stay the installed ones up to a combination of the rows.  `pivot_rowSpace` and
`Priced.pivot` say that.

The other half of the invariant is `Basic`: the basic columns form an identity and no
side is negative, so that giving every basic variable the side of its row is a solution
without negative entries.  A pivot keeps the identity because the entering column is
cleared, and it keeps the sides whenever no row is overdrawn; the ratio test and the
driving out of artificial variables meet that condition for different reasons, and
`Basic.pivot` leaves it open.
-/
import MarkovPlanning.Proofs.Linear.Equation
import Mathlib

namespace MarkovPlanning.Linear.Tableau

theorem basis_pivot {α : Type} [Scalar α] {n m k : Nat} (t : Tableau α n m k) (eps : α)
    (row i : Fin m) (column : Fin (n + m + k)) :
    (t.pivot eps row column).basis.get i = if i = row then column else t.basis.get i := by
  simp only [pivot, Vector.get_eq_getElem, Vector.getElem_set, Fin.ext_iff,
    eq_comm (a := i.val)]

variable {K : Type} [Field K] {n m k : Nat} {t : Tableau K n m k}

/-! ### The space of the rows -/

/-- The equations that follow from the rows by taking multiples and sums. -/
def rowSpace (t : Tableau K n m k) : Submodule K (Option (Fin (n + m + k)) → K) :=
  Submodule.span K (Set.range fun i => (t.rows.get i).vector)

theorem row_mem (t : Tableau K n m k) (i : Fin m) : (t.rows.get i).vector ∈ t.rowSpace :=
  Submodule.subset_span ⟨i, rfl⟩

/-- Whether a point satisfies every row. -/
def Solves (t : Tableau K n m k) (x : Fin (n + m + k) → K) : Prop := ∀ i, (t.rows.get i).Holds x

/-- A point satisfies the rows when it satisfies everything that follows from them. -/
theorem solves_iff {x : Fin (n + m + k) → K} :
    t.Solves x ↔ t.rowSpace ≤ LinearMap.ker (Equation.residual x) := by
  constructor
  · intro h
    refine Submodule.span_le.mpr ?_
    intro _ h
    obtain ⟨i, rfl⟩ := h
    exact (Equation.holds_iff _ _).mp (h i)
  · intro h i
    exact (Equation.holds_iff _ _).mpr (h (t.row_mem i))

theorem solves_congr {t' : Tableau K n m k} (h : t'.rowSpace = t.rowSpace)
    {x : Fin (n + m + k) → K} : t'.Solves x ↔ t.Solves x := by
  rw [solves_iff, solves_iff, h]

/-! ### Row operations -/

variable [LinearOrder K] [IsStrictOrderedRing K]

/-- The row that leaves, scaled so that it determines the entering column. -/
private theorem vector_scaled {row : Fin m} {column : Fin (n + m + k)} :
    (((t.rows.get row).map fun x =>
        settle 0 (x * (1 / (t.rows.get row).coefficient column)))).vector
      = ((t.rows.get row).coefficient column)⁻¹ • (t.rows.get row).vector := by
  funext j
  cases j with
  | none => simp [Equation.map, mul_comm]
  | some j => simp [mul_comm]

variable {row : Fin m} {column : Fin (n + m + k)}

private theorem coefficient_scaled (h : (t.rows.get row).coefficient column ≠ 0) :
    (((t.rows.get row).map fun x =>
        settle 0 (x * (1 / (t.rows.get row).coefficient column)))).coefficient column = 1 := by
  rw [← Equation.vector_some, vector_scaled]
  exact inv_mul_cancel₀ h

theorem pivot_row (h : (t.rows.get row).coefficient column ≠ 0) :
    ((t.pivot 0 row column).rows.get row).vector
      = ((t.rows.get row).coefficient column)⁻¹ • (t.rows.get row).vector := by
  simp only [pivot, Vector.get_ofFn, if_pos]
  rw [Equation.vector_set_self (coefficient_scaled h), vector_scaled]

theorem pivot_other (h : (t.rows.get row).coefficient column ≠ 0) {i : Fin m} (hi : i ≠ row) :
    ((t.pivot 0 row column).rows.get i).vector
      = (t.rows.get i).vector - (t.rows.get i).coefficient column •
          ((t.pivot 0 row column).rows.get row).vector := by
  rw [pivot_row h]
  simp only [pivot, Vector.get_ofFn, if_neg hi]
  rw [vector_clear (coefficient_scaled h), vector_scaled]

theorem pivot_cost (h : (t.rows.get row).coefficient column ≠ 0) :
    (t.pivot 0 row column).cost.vector
      = t.cost.vector - t.cost.coefficient column •
          ((t.pivot 0 row column).rows.get row).vector := by
  rw [pivot_row h]
  simp only [pivot]
  rw [vector_clear (coefficient_scaled h), vector_scaled]

theorem coefficient_pivot_row (h : (t.rows.get row).coefficient column ≠ 0)
    (j : Fin (n + m + k)) :
    ((t.pivot 0 row column).rows.get row).coefficient j
      = ((t.rows.get row).coefficient column)⁻¹ * (t.rows.get row).coefficient j :=
  congrFun (pivot_row h) (some j)

theorem side_pivot_row (h : (t.rows.get row).coefficient column ≠ 0) :
    ((t.pivot 0 row column).rows.get row).side
      = (t.rows.get row).side / (t.rows.get row).coefficient column := by
  rw [div_eq_inv_mul]
  exact congrFun (pivot_row h) none

theorem coefficient_pivot_other (h : (t.rows.get row).coefficient column ≠ 0) {i : Fin m}
    (hi : i ≠ row) (j : Fin (n + m + k)) :
    ((t.pivot 0 row column).rows.get i).coefficient j
      = (t.rows.get i).coefficient j - (t.rows.get i).coefficient column *
          ((t.pivot 0 row column).rows.get row).coefficient j :=
  congrFun (pivot_other h hi) (some j)

theorem side_pivot_other (h : (t.rows.get row).coefficient column ≠ 0) {i : Fin m}
    (hi : i ≠ row) :
    ((t.pivot 0 row column).rows.get i).side
      = (t.rows.get i).side - (t.rows.get i).coefficient column *
          ((t.rows.get row).side / (t.rows.get row).coefficient column) := by
  rw [← side_pivot_row h]
  exact congrFun (pivot_other h hi) none

theorem coefficient_pivot_cost (h : (t.rows.get row).coefficient column ≠ 0)
    (j : Fin (n + m + k)) :
    (t.pivot 0 row column).cost.coefficient j
      = t.cost.coefficient j - t.cost.coefficient column *
          ((t.pivot 0 row column).rows.get row).coefficient j :=
  congrFun (pivot_cost h) (some j)

/-- **A pivot keeps the space of the rows.** -/
theorem pivot_rowSpace (h : (t.rows.get row).coefficient column ≠ 0) :
    (t.pivot 0 row column).rowSpace = t.rowSpace := by
  have hnew : ((t.pivot 0 row column).rows.get row).vector ∈ t.rowSpace := by
    rw [pivot_row h]
    exact Submodule.smul_mem _ _ (t.row_mem row)
  apply le_antisymm
  · refine Submodule.span_le.mpr ?_
    intro _ h
    obtain ⟨i, rfl⟩ := h
    by_cases hi : i = row
    · rw [hi]
      exact hnew
    · show ((t.pivot 0 row column).rows.get i).vector ∈ t.rowSpace
      rw [pivot_other h hi]
      exact Submodule.sub_mem _ (t.row_mem i) (Submodule.smul_mem _ _ hnew)
  · refine Submodule.span_le.mpr ?_
    intro _ h
    obtain ⟨i, rfl⟩ := h
    have hrow := (t.pivot 0 row column).row_mem row
    by_cases hi : i = row
    · have hback : (t.rows.get row).vector
          = (t.rows.get row).coefficient column • ((t.pivot 0 row column).rows.get row).vector := by
        rw [pivot_row h, smul_smul, mul_inv_cancel₀ h, one_smul]
      show (t.rows.get i).vector ∈ (t.pivot 0 row column).rowSpace
      rw [hi, hback]
      exact Submodule.smul_mem _ _ hrow
    · have hback : (t.rows.get i).vector
          = ((t.pivot 0 row column).rows.get i).vector + (t.rows.get i).coefficient column •
              ((t.pivot 0 row column).rows.get row).vector := by
        rw [pivot_other h hi, sub_add_cancel]
      show (t.rows.get i).vector ∈ (t.pivot 0 row column).rowSpace
      rw [hback]
      exact Submodule.add_mem _ (row_mem _ i) (Submodule.smul_mem _ _ hrow)

/-! ### Single columns, whatever a pivot takes for zero -/

/-- A pivot makes its column a unit vector. -/
theorem coefficient_pivot_column (eps : K) (i : Fin m) :
    ((t.pivot eps row column).rows.get i).coefficient column = if i = row then 1 else 0 := by
  simp only [pivot, Vector.get_ofFn]
  by_cases hi : i = row
  · rw [if_pos hi, if_pos hi, Equation.coefficient_set_self]
  · rw [if_neg hi, if_neg hi, coefficient_clear, if_pos rfl]

/-- A pivot keeps the columns that its row is zero in. -/
theorem coefficient_pivot_of_eq_zero {eps : K} {i : Fin m} {j : Fin (n + m + k)}
    (hj : j ≠ column) (hrow : (t.rows.get row).coefficient j = 0)
    (hsettle : settle eps ((t.rows.get i).coefficient j) = (t.rows.get i).coefficient j) :
    ((t.pivot eps row column).rows.get i).coefficient j = (t.rows.get i).coefficient j := by
  simp only [pivot, Vector.get_ofFn]
  by_cases hi : i = row
  · rw [if_pos hi, Equation.coefficient_set, if_neg hj, Equation.coefficient_map, hi, hrow,
      zero_mul, settle_of_zero]
  · rw [if_neg hi, coefficient_clear, if_neg hj, Equation.coefficient_map, hrow, zero_mul,
      settle_of_zero, mul_zero, sub_zero, hsettle, ite_self]

/-! ### The basis -/

/-- The basic columns form an identity in the rows. -/
def Identity (t : Tableau K n m k) : Prop :=
  ∀ i j, (t.rows.get i).coefficient (t.basis.get j) = if i = j then 1 else 0

namespace Identity

omit [LinearOrder K] [IsStrictOrderedRing K] in
/-- No column is basic twice. -/
theorem basis_injective (h : t.Identity) {i j : Fin m} (hij : t.basis.get i = t.basis.get j) :
    i = j := by
  by_contra hne
  have h1 := h i i
  have h2 := h i j
  rw [if_pos rfl] at h1
  rw [if_neg hne, ← hij, h1] at h2
  exact one_ne_zero h2

/-- A pivot keeps the identity, whatever it takes for zero. -/
theorem pivot {eps : K} (h : t.Identity) (heps : eps ≤ 1)
    (hne : (t.rows.get row).coefficient column ≠ 0) : (t.pivot eps row column).Identity := by
  -- the columns that stay basic are zero in the row that leaves, unlike the one that enters
  have hstays : ∀ j, j ≠ row → (t.rows.get row).coefficient (t.basis.get j) = 0 := fun j hj =>
    (h row j).trans (if_neg (Ne.symm hj))
  have hcolumn : ∀ j, j ≠ row → t.basis.get j ≠ column := fun j hj he =>
    hne (he ▸ hstays j hj)
  intro i j
  rw [basis_pivot]
  by_cases hj : j = row
  · rw [if_pos hj, hj, coefficient_pivot_column]
  · rw [if_neg hj, ← h i j]
    refine coefficient_pivot_of_eq_zero (hcolumn j hj) (hstays j hj) ?_
    rw [h i j]
    split
    · exact settle_one heps
    · exact settle_of_zero eps

end Identity

/-- The basic columns form an identity in the rows, and no side is negative. -/
structure Basic (t : Tableau K n m k) : Prop where
  identity : ∀ i j, (t.rows.get i).coefficient (t.basis.get j) = if i = j then 1 else 0
  sides : ∀ i, 0 ≤ (t.rows.get i).side

namespace Basic

/-- **A pivot that overdraws no row keeps the basis.** -/
theorem pivot (h : t.Basic) (hne : (t.rows.get row).coefficient column ≠ 0)
    (hrow : 0 ≤ (t.rows.get row).side / (t.rows.get row).coefficient column)
    (hother : ∀ i, i ≠ row → (t.rows.get i).coefficient column *
      ((t.rows.get row).side / (t.rows.get row).coefficient column) ≤ (t.rows.get i).side) :
    (t.pivot 0 row column).Basic := by
  refine ⟨Identity.pivot h.identity zero_le_one hne, fun i => ?_⟩
  by_cases hi : i = row
  · rw [hi, side_pivot_row hne]
    exact hrow
  · rw [side_pivot_other hne hi]
    exact sub_nonneg.mpr (hother i hi)

end Basic

/-! ### Costs -/

/-- The costs are the installed ones up to a combination of the rows, and zero for the basic
columns. -/
structure Priced (t : Tableau K n m k) (installed : Equation K (n + m + k)) : Prop where
  basic : ∀ i, t.cost.coefficient (t.basis.get i) = 0
  reduced : installed.vector - t.cost.vector ∈ t.rowSpace

namespace Priced

variable {installed : Equation K (n + m + k)}

/-- **A pivot keeps what the costs say.** -/
theorem pivot (h : t.Priced installed) (hb : t.Basic)
    (hne : (t.rows.get row).coefficient column ≠ 0) :
    (t.pivot 0 row column).Priced installed := by
  constructor
  · intro i
    rw [basis_pivot]
    rw [coefficient_pivot_cost hne, coefficient_pivot_row hne]
    by_cases hi : i = row
    · rw [if_pos hi, inv_mul_cancel₀ hne, mul_one, sub_self]
    · rw [if_neg hi, h.basic, hb.identity, if_neg (Ne.symm hi), mul_zero, mul_zero, sub_zero]
  · rw [pivot_rowSpace hne, pivot_cost hne, ← sub_add]
    refine Submodule.add_mem _ h.reduced (Submodule.smul_mem _ _ ?_)
    rw [← pivot_rowSpace hne]
    exact row_mem _ row

omit [LinearOrder K] [IsStrictOrderedRing K] in
/-- Where the rows hold, the costs give the installed ones. -/
theorem eval_eq (h : t.Priced installed) {x : Fin (n + m + k) → K} (hx : t.Solves x) :
    installed.eval x - installed.side = t.cost.eval x - t.cost.side := by
  have := LinearMap.mem_ker.mp (solves_iff.mp hx h.reduced)
  rw [map_sub, Equation.residual_vector, Equation.residual_vector, sub_eq_zero] at this
  exact this

end Priced

end MarkovPlanning.Linear.Tableau
