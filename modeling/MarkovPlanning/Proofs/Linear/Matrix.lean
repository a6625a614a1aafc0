/-
Which matrices are solved.

A matrix of the right shape is a system of equations, and `square` is the matrix of that system.
The points that satisfy the equations are those that the matrix takes to the sides, and the left
sides vanish at the points that it takes to zero (`System.solves_ofMatrix_iff`,
`System.vanishes_ofMatrix_iff`).

A matrix that is not invertible takes some point other than zero to zero, so elimination refuses
it.  What is not refused is therefore invertible, and the answer, being a solution, is the only
one (`isUnit_of_solve`).  A refusal does not say that a matrix is singular, but that it nearly is:
there is a point that is not small and that the matrix takes to one that is.
-/
import MarkovPlanning.Proofs.Linear.Pivots
import Mathlib

namespace MarkovPlanning.Linear

open Matrix

variable {K : Type} [Field K] {rows columns n : Nat}

/-- The entries of a matrix with as many rows and columns as there are sides. -/
def square (matrix : Vector (Vector K columns) rows) (hrows : rows = n) (hcolumns : columns = n) :
    Matrix (Fin n) (Fin n) K :=
  Matrix.of fun row column => (matrix.get (row.cast hrows.symm)).get (column.cast hcolumns.symm)

variable {matrix : Vector (Vector K columns) rows} {sides : Vector K n}

namespace System

variable (h : rows = n ∧ columns = n)

/-- The left side of an equation is an entry of the product. -/
theorem eval_ofMatrix (x : Fin n → K) (row : Fin n) :
    ((ofMatrix matrix sides h).get row).eval x = (square matrix h.1 h.2 *ᵥ x) row := by
  obtain ⟨rfl, rfl⟩ := h
  simp only [ofMatrix, Vector.get_ofFn]
  rfl

theorem solves_ofMatrix_iff {x : Fin n → K} :
    (ofMatrix matrix sides h).Solves x ↔ square matrix h.1 h.2 *ᵥ x = sides.get := by
  have hside (row : Fin n) : ((ofMatrix matrix sides h).get row).side = sides.get row := by
    simp only [ofMatrix, Vector.get_ofFn]
  simp only [Solves, Equation.Holds, eval_ofMatrix, hside]
  exact funext_iff.symm

theorem vanishes_ofMatrix_iff {x : Fin n → K} :
    (ofMatrix matrix sides h).Vanishes x ↔ square matrix h.1 h.2 *ᵥ x = 0 := by
  simp only [Vanishes, eval_ofMatrix]
  exact funext_iff.symm

end System

variable [LinearOrder K] [IsStrictOrderedRing K]

/-- A singular matrix is refused in some column. -/
theorem solve_ofMatrix_of_singular (h : rows = n ∧ columns = n) (sides : Vector K n)
    (hsingular : ¬IsUnit (square matrix h.1 h.2)) :
    ∃ column : Fin n, (System.ofMatrix matrix sides h).solve = .error (.singular column) := by
  have hdet : (square matrix h.1 h.2).det = 0 := by
    rwa [Matrix.isUnit_iff_isUnit_det, isUnit_iff_ne_zero, not_not] at hsingular
  obtain ⟨x, hx, hzero⟩ := Matrix.exists_mulVec_eq_zero_iff.mpr hdet
  exact System.solve_singular hx ((System.vanishes_ofMatrix_iff h).mpr hzero)

/-- **A matrix that is solved is invertible, and the answer is the only solution.** -/
theorem isUnit_of_solve (h : rows = n ∧ columns = n) {x : Vector K n}
    (hsolve : (System.ofMatrix matrix sides h).solve = .ok x) :
    IsUnit (square matrix h.1 h.2) ∧
      ∀ y : Fin n → K, square matrix h.1 h.2 *ᵥ y = sides.get ↔ y = x.get := by
  have hunit : IsUnit (square matrix h.1 h.2) := by
    by_contra hsingular
    obtain ⟨column, hfault⟩ := solve_ofMatrix_of_singular h sides hsingular
    cases hsolve.symm.trans hfault
  have hx : square matrix h.1 h.2 *ᵥ x.get = sides.get :=
    (System.solves_ofMatrix_iff h).mp ((System.solve_spec _).1 x hsolve)
  refine ⟨hunit, fun y => ⟨fun hy => ?_, fun hy => hy ▸ hx⟩⟩
  exact Matrix.mulVec_injective_of_isUnit hunit (hy.trans hx.symm)

/-- **Linear systems are solved or refused for a reason.**  An answer is only given for a matrix of
the right shape that is invertible, and it is the only solution.  A matrix of another shape and a
singular one are refused.  A matrix of the right shape is only refused if it takes some point that
is not small to one that is. -/
theorem solveMatrix_settles (matrix : Vector (Vector K columns) rows) (sides : Vector K n) :
    (∀ x, solveMatrix matrix sides = .ok x → ∃ (hrows : rows = n) (hcolumns : columns = n),
      IsUnit (square matrix hrows hcolumns) ∧
        ∀ y : Fin n → K, square matrix hrows hcolumns *ᵥ y = sides.get ↔ y = x.get) ∧
    (¬(rows = n ∧ columns = n) →
      solveMatrix matrix sides = .error (.unsolvableShape rows columns n)) ∧
    ∀ (hrows : rows = n) (hcolumns : columns = n),
      (¬IsUnit (square matrix hrows hcolumns) →
        ∃ column : Fin n, solveMatrix matrix sides = .error (.singular column)) ∧
      ∀ fault, solveMatrix matrix sides = .error fault →
        ∃ v : Fin n → K, v ≠ 0 ∧ (∃ i, 1 ≤ v i) ∧
          ∀ row, |(square matrix hrows hcolumns *ᵥ v) row| < 1e-12 := by
  refine ⟨fun x hsolve => ?_, fun h => dif_neg h, fun hrows hcolumns => ⟨fun hsingular => ?_, ?_⟩⟩
  · by_cases h : rows = n ∧ columns = n
    · rw [solveMatrix, dif_pos h] at hsolve
      exact ⟨h.1, h.2, isUnit_of_solve h hsolve⟩
    · rw [solveMatrix, dif_neg h] at hsolve
      cases hsolve
  · rw [solveMatrix, dif_pos ⟨hrows, hcolumns⟩]
    exact solve_ofMatrix_of_singular ⟨hrows, hcolumns⟩ sides hsingular
  · intro fault hfault
    rw [solveMatrix, dif_pos ⟨hrows, hcolumns⟩] at hfault
    obtain ⟨v, ⟨i, hone⟩, hsmall⟩ := (System.solve_spec _).2 fault hfault
    refine ⟨v, fun hzero => ?_, ⟨i, hone.ge⟩, fun row => ?_⟩
    · rw [hzero] at hone
      exact zero_ne_one hone
    · rw [← System.eval_ofMatrix ⟨hrows, hcolumns⟩]
      exact hsmall row

/-- Three equations of which the first one does not have the first unknown, two that say nearly the
same, and too few. -/
theorem solveMatrix_settles_exchanged :
    (∃ x, solveMatrix #v[#v[(0 : ℚ), 2, 1], #v[1, 1, 0], #v[2, 0, 3]] #v[5, 3, 5] = .ok x ∧
      ∀ y, !![0, 2, 1; 1, 1, 0; 2, 0, 3] *ᵥ y = ![5, 3, 5] ↔ y = x.get) ∧
    (∃ v : Fin 2 → ℚ, (∃ i, 1 ≤ v i) ∧ ∀ row, |(!![1, 2; 2, 4 + 1e-13] *ᵥ v) row| < 1e-12) ∧
    solveMatrix #v[#v[(1 : ℚ), 2, 3], #v[2, 4, 6]] #v[1, 2] = .error (.unsolvableShape 2 3 2) := by
  refine ⟨?_, ?_, ?_⟩
  · have hsolve : solveMatrix #v[#v[(0 : ℚ), 2, 1], #v[1, 1, 0], #v[2, 0, 3]] #v[5, 3, 5]
        = .ok #v[1, 2, 1] := by decide +kernel
    obtain ⟨_, _, -, hunique⟩ := (solveMatrix_settles _ _).1 _ hsolve
    have hsquare : square #v[#v[(0 : ℚ), 2, 1], #v[1, 1, 0], #v[2, 0, 3]] rfl rfl
        = !![0, 2, 1; 1, 1, 0; 2, 0, 3] := by decide +kernel
    have hsides : (#v[5, 3, 5] : Vector ℚ 3).get = ![5, 3, 5] := by decide +kernel
    rw [hsquare, hsides] at hunique
    exact ⟨_, hsolve, hunique⟩
  · have hfault : solveMatrix #v[#v[(1 : ℚ), 2], #v[2, 4 + 1e-13]] #v[1, 2]
        = .error (.singular 1) := by decide +kernel
    obtain ⟨v, -, hlarge, hsmall⟩ := ((solveMatrix_settles _ _).2.2 rfl rfl).2 _ hfault
    have hsquare : square #v[#v[(1 : ℚ), 2], #v[2, 4 + 1e-13]] rfl rfl
        = !![1, 2; 2, 4 + 1e-13] := by decide +kernel
    rw [hsquare] at hsmall
    exact ⟨v, hlarge, hsmall⟩
  · exact (solveMatrix_settles _ _).2.1 (by decide)

end MarkovPlanning.Linear
