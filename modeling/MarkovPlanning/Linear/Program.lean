/-
Linear programs over non-negative variables.

A program asks for non-negative variables that keep every constraint below its
bound and make the objective as large, or as small, as possible.  Coefficients
that are missing at the end of a constraint are zero, and coefficients of
variables that the objective does not have are not looked at.
-/
import MarkovPlanning.Scalar

namespace MarkovPlanning.Linear

/-- The sum of the products of coefficients and variables is at most the bound. -/
structure Constraint (α : Type) where
  coefficients : List α
  bound : α

/-- An objective and constraints. -/
structure Program (α : Type) where
  objective : List α
  constraints : List (Constraint α)
  /-- Bounds without coefficients.  They do not constrain anything. -/
  unmatched : List α := []

/-- How a program is to be solved. -/
structure Settings (α : Type) where
  /-- The number of pivots after which the search is given up. -/
  maxPivots : Nat
  /-- What is this close to zero counts as zero. -/
  tolerance : α

/-- Ten thousand pivots, at ten decimals. -/
def Settings.standard {α : Type} [Scalar α] : Settings α where
  maxPivots := 10000
  tolerance := 1e-10

/-- What became of a program. -/
inductive Outcome (α : Type) where
  /-- The best point and the value of the objective there. -/
  | optimal (point : List α) (value : α)
  /-- No point meets all constraints. -/
  | infeasible
  /-- The objective has no limit. -/
  | unbounded
  /-- The search was given up. -/
  | pivotLimit

/-- The outcome and the number of pivots it took. -/
structure Solution (α : Type) where
  outcome : Outcome α
  pivots : Nat

namespace Program

variable {α : Type} [Scalar α]

/-- The program of the rows of a matrix and a list of bounds.  Of rows and bounds that do not
pair up, only the bounds are kept. -/
def ofMatrix (objective : List α) (rows : List (List α)) (bounds : List α) : Program α where
  objective
  constraints := List.zipWith Constraint.mk rows bounds
  unmatched := bounds.drop rows.length

end Program

end MarkovPlanning.Linear
