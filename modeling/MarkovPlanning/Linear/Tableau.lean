/-
The tableau of a linear program.

Adding one slack variable per constraint turns the constraints into equations.  An
equation with a negative side is negated, which leaves its slack variable unfit to
start from, so it is given an artificial variable as well.  The columns are the
variables of the program, the slack variables and the artificial ones, in that
order.

A tableau keeps one basic column per equation, together with a row of reduced
costs whose side is the negated value of the objective that is being minimised.
Pivoting exchanges one basic column for another.  The entering column is the first
with a negative cost and the leaving row the one with the least ratio, ties going
to the lowest basic column; no basis comes back under that rule.
-/
import MarkovPlanning.Linear.Equation
import MarkovPlanning.Linear.Program

namespace MarkovPlanning.Linear

/-- The members of a list that come before a member with some property are fewer, of those with
the property, than all of them. -/
theorem countP_take_lt {β : Type} {p : β → Bool} {xs : List β} {i : Nat} (hi : i < xs.length)
    (hp : p xs[i]) : (xs.take i).countP p < xs.countP p := by
  have h : xs.countP p = (xs.take i).countP p + (xs.drop i).countP p := by
    rw [← List.countP_append, List.take_append_drop]
  rw [List.drop_eq_getElem_cons hi, List.countP_cons_of_pos hp] at h
  omega

/-- Equations over `n` variables, one slack variable for each of the `m` equations and `k`
artificial variables, with a basis and a row of costs. -/
structure Tableau (α : Type) (n m k : Nat) where
  cost : Equation α (n + m + k)
  rows : Vector (Equation α (n + m + k)) m
  /-- The column that each row determines. -/
  basis : Vector (Fin (n + m + k)) m

namespace Tableau

variable {α : Type} [Scalar α] {n m k : Nat}

/-- Whether a column belongs to an artificial variable. -/
def isArtificial (column : Fin (n + m + k)) : Bool := n + m ≤ column

/-! ### The first tableau -/

/-- Whether a bound makes its equation be negated. -/
def isNegated (bound : α) : Bool := bound < 0

/-- The number of artificial variables of a program. -/
def artificials (program : Program α) : Nat :=
  program.constraints.countP (fun constraint => isNegated constraint.bound) +
    program.unmatched.countP isNegated

/-- The artificial column of a negated equation: they are handed out from the first on. -/
def artificialColumn (program : Program α) (i : Fin program.constraints.length)
    (h : isNegated (program.constraints.get i).bound) :
    Fin (program.objective.length + program.constraints.length + artificials program) :=
  let before := (program.constraints.take i).countP fun constraint => isNegated constraint.bound
  ⟨program.objective.length + program.constraints.length + before, by
    have : before < _ :=
      countP_take_lt (p := fun constraint => isNegated constraint.bound) i.isLt h
    simp only [artificials]
    omega⟩

/-- The first tableau of a program, without costs. -/
def ofProgram (program : Program α) :
    Tableau α program.objective.length program.constraints.length (artificials program) where
  cost := .zero
  rows := Vector.ofFn fun i =>
    let constraint := program.constraints.get i
    let sign : α := if isNegated constraint.bound then -1 else 1
    let row : Equation α _ :=
      { coefficients := Vector.ofFn fun j =>
          if j < program.objective.length then
            ((constraint.coefficients[j.val]?).map (sign * ·)).getD 0
          else if j.val = program.objective.length + i then sign
          else 0
        side := sign * constraint.bound }
    if h : isNegated constraint.bound then row.set (artificialColumn program i h) 1 else row
  basis := Vector.ofFn fun i =>
    if h : isNegated (program.constraints.get i).bound then artificialColumn program i h
    else ⟨program.objective.length + i, by omega⟩

/-! ### Costs -/

/-- The costs of the first phase: one for every artificial variable. -/
def artificialCost : Equation α (n + m + k) where
  coefficients := Vector.ofFn fun column => if isArtificial column then 1 else 0
  side := 0

/-- The costs of the second phase: the objective negated, since costs are minimised. -/
def objectiveCost (objective : List α) : Equation α (n + m + k) where
  coefficients := Vector.ofFn fun column =>
    if column < n then ((objective[column.val]?).map (-·)).getD 0 else 0
  side := 0

/-- Installs a row of costs and frees it of the basic columns. -/
def withCost (tableau : Tableau α n m k) (eps : α) (cost : Equation α (n + m + k)) :
    Tableau α n m k :=
  { tableau with
    cost := (List.finRange m).foldl
      (fun cost i =>
        let coefficient := cost.coefficient (tableau.basis.get i)
        if eps < Scalar.abs coefficient then cost.minus coefficient (tableau.rows.get i) else cost)
      cost }

/-! ### Pivoting -/

/-- Replaces a number close to zero by zero. -/
def settle (eps x : α) : α := if Scalar.abs x < eps then 0 else x

/-- Frees an equation of a column by means of the equation that determines it. -/
def clear (eps : α) (pivot : Equation α n) (column : Fin n) (equation : Equation α n) :
    Equation α n :=
  let factor := equation.coefficient column
  let cleared :=
    if eps < Scalar.abs factor then (equation.minus factor pivot).map (settle eps) else equation
  cleared.set column 0

/-- Makes a column basic in a row. -/
def pivot (tableau : Tableau α n m k) (eps : α) (row : Fin m) (column : Fin (n + m + k)) :
    Tableau α n m k :=
  let scale := 1 / (tableau.rows.get row).coefficient column
  let pivot := (tableau.rows.get row).map fun x => settle eps (x * scale)
  { cost := clear eps pivot column tableau.cost
    rows := Vector.ofFn fun i =>
      if i = row then pivot.set column 1 else clear eps pivot column (tableau.rows.get i)
    basis := tableau.basis.set row.val column row.isLt }

/-- The first column whose cost can be improved.  Artificial columns may only come back in the
first phase. -/
def entering? (tableau : Tableau α n m k) (eps : α) (firstPhase : Bool) :
    Option (Fin (n + m + k)) :=
  (List.finRange (n + m + k)).find? fun column =>
    (firstPhase || !isArtificial column) && tableau.cost.coefficient column < -eps

/-- Whether a row with some ratio leaves rather than the best one so far. -/
def precedes (tableau : Tableau α n m k) (eps : α) (row best : Fin m) (ratio bestRatio : α) :
    Bool :=
  ratio < bestRatio - eps ||
    (Scalar.abs (ratio - bestRatio) ≤ eps && tableau.basis.get row < tableau.basis.get best)

/-- The row that limits the growth of a column first. -/
def leaving? (tableau : Tableau α n m k) (eps : α) (column : Fin (n + m + k)) :
    Option (Fin m × α) :=
  (List.finRange m).foldl
    (fun best row =>
      let coefficient := (tableau.rows.get row).coefficient column
      if eps < coefficient then
        let ratio := (tableau.rows.get row).side / coefficient
        match best with
        | none => some (row, ratio)
        | some (bestRow, bestRatio) =>
          if tableau.precedes eps row bestRow ratio bestRatio then some (row, ratio) else best
      else best)
    none

/-- Makes zero artificial variables leave the basis where another column can take their place. -/
def driveOut (tableau : Tableau α n m k) (eps : α) : Tableau α n m k :=
  (List.finRange m).foldl
    (fun tableau row =>
      if isArtificial (tableau.basis.get row) then
        let column? := (List.finRange (n + m + k)).find? fun column =>
          !isArtificial column && eps < Scalar.abs ((tableau.rows.get row).coefficient column)
        match column? with
        | some column => tableau.pivot eps row column
        | none => tableau
      else tableau)
    tableau

/-! ### What a tableau says -/

/-- The basic solution: each basic variable of the program has the side of its row. -/
def point (tableau : Tableau α n m k) : Vector α n :=
  (List.finRange m).foldl
    (fun point row =>
      let column : Fin (n + m + k) := tableau.basis.get row
      if h : column.val < n then point.set column.val (tableau.rows.get row).side h else point)
    (Vector.replicate n 0)

end Tableau

end MarkovPlanning.Linear
