/-
Linear equations as rows of numbers.

Elimination and pivoting both work by taking a multiple of one row away from
another, with the right-hand side treated like one more coefficient.
-/
import MarkovPlanning.Scalar

namespace MarkovPlanning.Linear

/-- One equation in `n` unknowns. -/
structure Equation (α : Type) (n : Nat) where
  coefficients : Vector α n
  side : α

namespace Equation

variable {α : Type} [Scalar α] {n : Nat}

/-- The equation that no unknown occurs in. -/
def zero : Equation α n where
  coefficients := Vector.replicate n 0
  side := 0

/-- The coefficient of one unknown. -/
def coefficient (equation : Equation α n) (column : Fin n) : α :=
  equation.coefficients.get column

/-- Changes every number of an equation. -/
def map (f : α → α) (equation : Equation α n) : Equation α n where
  coefficients := equation.coefficients.map f
  side := f equation.side

/-- Takes a multiple of another equation away. -/
def minus (equation : Equation α n) (factor : α) (other : Equation α n) : Equation α n where
  coefficients :=
    equation.coefficients.zipWith (fun x y => x - factor * y) other.coefficients
  side := equation.side - factor * other.side

/-- Replaces the coefficient of one unknown. -/
def set (equation : Equation α n) (column : Fin n) (value : α) : Equation α n :=
  { equation with coefficients := equation.coefficients.set column.val value column.isLt }

end Equation

end MarkovPlanning.Linear
