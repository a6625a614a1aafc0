/-
Systems of linear equations.

A system is a square matrix with a right-hand side.  Elimination walks over the
columns: it exchanges the current row with the row below it whose entry in the
column is greatest, refuses a column in which no entry is large enough, and takes
multiples of the current row away from the rows below.  Every step is an exchange
of rows or the subtraction of a multiple of one row from another, so the solutions
stay what they were, and the triangle that is left is solved from its last row
upwards.
-/
import MarkovPlanning.Error
import MarkovPlanning.Linear.Equation

namespace MarkovPlanning.Linear

/-- As many equations as unknowns. -/
abbrev System (α : Type) (n : Nat) := Vector (Equation α n) n

namespace System

variable {α : Type} [Scalar α] {n : Nat}

/-- The size below which a pivot counts as zero. -/
def pivotThreshold : α := 1e-12

/-- The size of the entry of a row in a column. -/
def size (system : System α n) (column row : Fin n) : α :=
  Scalar.abs ((system.get row).coefficient column)

/-- The row from `column` down whose entry in the column is greatest, the first of several. -/
def pivotRow (system : System α n) (column : Fin n) : Fin n :=
  (List.finRange n).foldl
    (fun best row =>
      if column < row ∧ system.size column best < system.size column row then row else best)
    column

/-- Exchanges two rows. -/
def exchange (system : System α n) (row other : Fin n) : System α n :=
  (system.set row.val (system.get other) row.isLt).set other.val (system.get row) other.isLt

/-- Removes the unknown `column` from the equations below the one at `column`. -/
def clearBelow (system : System α n) (column : Fin n) : System α n :=
  let pivot := system.get column
  Vector.ofFn fun row =>
    let equation := system.get row
    if row ≤ column then equation
    else
      let factor := equation.coefficient column / pivot.coefficient column
      if Scalar.isZero factor then equation else equation.minus factor pivot

/-- One column of the elimination. -/
def eliminate (system : System α n) (column : Fin n) : Except NumericFault (System α n) :=
  let row := system.pivotRow column
  if system.size column row < pivotThreshold then .error (.singular column)
  else .ok ((system.exchange column row).clearBelow column)

/-- The unknowns from the last to the first, each from the ones after it. -/
def backSubstitute (system : System α n) : Vector α n :=
  (List.finRange n).reverse.foldl
    (fun solution row =>
      let equation := system.get row
      let rest := (List.finRange n).foldl
        (fun rest column =>
          if row < column then rest - equation.coefficient column * solution.get column else rest)
        equation.side
      solution.set row.val (rest / equation.coefficient row) row.isLt)
    (Vector.replicate n 0)

/-- The solution of a system. -/
def solve (system : System α n) : Except NumericFault (Vector α n) := do
  let triangle ← (List.finRange n).foldlM eliminate system
  return triangle.backSubstitute

end System

section

variable {α : Type} [Scalar α] {rows columns n : Nat}

/-- The equations of a matrix with as many rows and columns as there are sides. -/
def System.ofMatrix (matrix : Vector (Vector α columns) rows) (sides : Vector α n)
    (h : rows = n ∧ columns = n) : System α n :=
  Vector.ofFn fun row =>
    { coefficients := (matrix.get (row.cast h.1.symm)).cast h.2
      side := sides.get row }

/-- Solves `matrix * x = sides` for a matrix of any shape. -/
def solveMatrix (matrix : Vector (Vector α columns) rows) (sides : Vector α n) :
    Except NumericFault (Vector α n) :=
  if h : rows = n ∧ columns = n then (System.ofMatrix matrix sides h).solve
  else .error (.unsolvableShape rows columns n)

/-- The same for a matrix that is given by its rows, which are all as long as the first one. -/
def solve? (matrix : List (List α)) (sides : List α) : Except NumericFault (List α) :=
  let columns := (matrix.head?.map List.length).getD 0
  if h : ∀ row ∈ matrix, row.length = columns then do
    let rows : Vector (Vector α columns) matrix.length :=
      Vector.ofFn fun row => ⟨(matrix.get row).toArray, by simpa using h _ (by simp)⟩
    let solution ← solveMatrix rows ⟨sides.toArray, rfl⟩
    return solution.toList
  else .error (.unsolvableShape matrix.length columns sides.length)

end

end MarkovPlanning.Linear
