/-
Equations as vectors.

An equation in `n` unknowns is a vector of `n + 1` numbers, its coefficients and its
side, and taking a multiple of another equation away is subtraction of vectors.
`Equation.vector` is that view.  A point satisfies an equation when a certain linear
functional, `residual`, vanishes on its vector, so it satisfies a set of equations
exactly when the functional vanishes on the space they span.  Everything that
pivoting does to a system of equations can therefore be said of spans alone.
-/
import MarkovPlanning.Linear.Tableau
import MarkovPlanning.Proofs.Exact
import Mathlib

namespace MarkovPlanning.Linear

namespace Equation

variable {α : Type} {n : Nat}

theorem coefficient_set (equation : Equation α n) (column j : Fin n) (value : α) :
    (equation.set column value).coefficient j
      = if j = column then value else equation.coefficient j := by
  simp only [set, coefficient, Vector.get_eq_getElem, Vector.getElem_set, Fin.ext_iff,
    eq_comm (a := j.val)]

@[simp]
theorem coefficient_set_self (equation : Equation α n) (column : Fin n) (value : α) :
    (equation.set column value).coefficient column = value := by
  rw [coefficient_set, if_pos rfl]

@[simp]
theorem coefficient_map (f : α → α) (equation : Equation α n) (j : Fin n) :
    (equation.map f).coefficient j = f (equation.coefficient j) := by
  simp [map, coefficient, Vector.get_eq_getElem]

@[simp]
theorem coefficient_ofFn (f : Fin n → α) (side : α) (j : Fin n) :
    ({ coefficients := Vector.ofFn f, side } : Equation α n).coefficient j = f j := by
  simp [coefficient, Vector.get_eq_getElem]

@[simp]
theorem coefficient_minus [Scalar α] (equation other : Equation α n) (factor : α) (j : Fin n) :
    (equation.minus factor other).coefficient j
      = equation.coefficient j - factor * other.coefficient j := by
  simp [minus, coefficient, Vector.get_eq_getElem]

/-- The coefficients of an equation, and its side at `none`. -/
def vector (equation : Equation α n) : Option (Fin n) → α
  | none => equation.side
  | some j => equation.coefficient j

@[simp]
theorem vector_none (equation : Equation α n) : equation.vector none = equation.side := rfl

@[simp]
theorem vector_some (equation : Equation α n) (j : Fin n) :
    equation.vector (some j) = equation.coefficient j := rfl

/-- Writing a coefficient that is there already changes nothing. -/
theorem vector_set_self {equation : Equation α n} {column : Fin n} {value : α}
    (h : equation.coefficient column = value) :
    (equation.set column value).vector = equation.vector := by
  funext j
  cases j with
  | none => rfl
  | some j =>
      rw [vector_some, vector_some, coefficient_set]
      by_cases hj : j = column
      · rw [if_pos hj, hj, h]
      · rw [if_neg hj]

/-! ### Points -/

variable {K : Type} [Field K]

/-- How far a point misses the side of an equation, as a functional of the equation. -/
def residual (x : Fin n → K) : (Option (Fin n) → K) →ₗ[K] K where
  toFun v := ∑ j, v (some j) * x j - v none
  map_add' v w := by
    simp only [Pi.add_apply, add_mul, Finset.sum_add_distrib]
    ring
  map_smul' c v := by
    simp only [Pi.smul_apply, smul_eq_mul, mul_assoc, ← Finset.mul_sum, RingHom.id_apply]
    ring

/-- The left side of an equation at a point. -/
def eval (equation : Equation K n) (x : Fin n → K) : K := ∑ j, equation.coefficient j * x j

/-- The left side at a point, as a functional of the equation. -/
def leftSide (x : Fin n → K) : (Option (Fin n) → K) →ₗ[K] K :=
  ∑ j, x j • LinearMap.proj (some j)

theorem leftSide_vector (equation : Equation K n) (x : Fin n → K) :
    leftSide x equation.vector = equation.eval x := by
  simp only [leftSide, LinearMap.sum_apply, LinearMap.smul_apply, LinearMap.proj_apply, smul_eq_mul,
    vector_some, eval, mul_comm]

/-- Whether a point satisfies an equation. -/
def Holds (equation : Equation K n) (x : Fin n → K) : Prop := equation.eval x = equation.side

theorem residual_vector (equation : Equation K n) (x : Fin n → K) :
    residual x equation.vector = equation.eval x - equation.side := rfl

theorem holds_iff (equation : Equation K n) (x : Fin n → K) :
    equation.Holds x ↔ residual x equation.vector = 0 := by
  rw [residual_vector, sub_eq_zero]
  exact Iff.rfl

variable [LinearOrder K]

theorem vector_minus (equation other : Equation K n) (factor : K) :
    (equation.minus factor other).vector = equation.vector - factor • other.vector := by
  funext j
  cases j with
  | none => rfl
  | some j => simp

/-- Coefficients that are not negative where a point is not zero give a left side that is not
negative. -/
theorem eval_nonneg [IsStrictOrderedRing K] {equation : Equation K n} {x : Fin n → K}
    (hx : ∀ j, 0 ≤ x j) (h : ∀ j, x j ≠ 0 → 0 ≤ equation.coefficient j) :
    0 ≤ equation.eval x := by
  refine Finset.sum_nonneg fun j _ => ?_
  by_cases hj : x j = 0
  · rw [hj, mul_zero]
  · exact mul_nonneg (h j hj) (hx j)

end Equation

namespace Tableau

variable {K : Type} [Field K] [LinearOrder K] [IsStrictOrderedRing K] {n : Nat}

/-! ### Numbers close to zero -/

omit [IsStrictOrderedRing K] in
@[simp]
theorem settle_of_zero (eps : K) : settle eps (0 : K) = 0 := by
  unfold settle
  split <;> rfl

theorem settle_one {eps : K} (h : eps ≤ 1) : settle eps (1 : K) = 1 := by
  unfold settle
  rw [if_neg (by rw [Scalar.abs_eq, abs_one]; exact not_lt.mpr h)]

/-- What clearing a column leaves of a coefficient. -/
theorem coefficient_clear (eps : K) (pivot : Equation K n) (column : Fin n)
    (equation : Equation K n) (j : Fin n) :
    (clear eps pivot column equation).coefficient j
      = if j = column then 0
        else if eps < |equation.coefficient column| then
          settle eps (equation.coefficient j - equation.coefficient column * pivot.coefficient j)
        else equation.coefficient j := by
  simp only [clear, Equation.coefficient_set, Scalar.abs_eq]
  refine if_congr Iff.rfl rfl ?_
  split
  · rw [Equation.coefficient_map, Equation.coefficient_minus]
  · rfl

/-- What clearing a column leaves of the side. -/
theorem side_clear (eps : K) (pivot : Equation K n) (column : Fin n) (equation : Equation K n) :
    (clear eps pivot column equation).side
      = if eps < |equation.coefficient column| then
          settle eps (equation.side - equation.coefficient column * pivot.side)
        else equation.side := by
  simp only [clear, Equation.set, Scalar.abs_eq]
  split <;> rfl

/-! ### Elimination without rounding -/

@[simp]
theorem settle_zero (x : K) : settle 0 x = x := by
  unfold settle
  rw [if_neg (by rw [Scalar.abs_eq]; exact not_lt.mpr (abs_nonneg x))]

@[simp]
theorem vector_map_settle (equation : Equation K n) :
    (equation.map (settle 0)).vector = equation.vector := by
  funext j
  cases j with
  | none => exact settle_zero _
  | some j => simp

/-- Clearing a column takes away the multiple of the pivot that leaves zero there. -/
theorem vector_clear {pivot : Equation K n} {column : Fin n} (h : pivot.coefficient column = 1)
    (equation : Equation K n) :
    (clear 0 pivot column equation).vector
      = equation.vector - equation.coefficient column • pivot.vector := by
  simp only [clear]
  by_cases hf : 0 < Scalar.abs (equation.coefficient column)
  · rw [if_pos hf, Equation.vector_set_self, vector_map_settle, Equation.vector_minus]
    simp [h]
  · have hzero : equation.coefficient column = 0 := by
      rw [Scalar.abs_eq] at hf
      exact abs_nonpos_iff.mp (not_lt.mp hf)
    rw [if_neg hf, Equation.vector_set_self hzero, hzero, zero_smul, sub_zero]

end Tableau

end MarkovPlanning.Linear
