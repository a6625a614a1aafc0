/-
The simplex method in two phases.

The first phase minimises the sum of the artificial variables and finds a point
that meets the constraints, or shows that there is none.  The second phase starts
from that point and minimises the negated objective.  Both phases draw on one
supply of pivots.
-/
import MarkovPlanning.Linear.Tableau

namespace MarkovPlanning.Linear

namespace Tableau

variable {α : Type} [Scalar α] {n m k : Nat}

/-- How a phase ended. -/
inductive Verdict where
  /-- No cost can be improved. -/
  | optimal
  /-- Nothing limits the improvement. -/
  | unbounded
  /-- The pivots were used up. -/
  | exhausted
deriving DecidableEq, Repr

/-- Pivots until the phase ends.  The result holds the last tableau and the pivots left over. -/
def run (eps : α) (firstPhase : Bool) : (pivots : Nat) → Tableau α n m k →
    Verdict × Tableau α n m k × Nat
  | 0, tableau =>
    match tableau.entering? eps firstPhase with
    | none => (.optimal, tableau, 0)
    | some _ => (.exhausted, tableau, 0)
  | pivots + 1, tableau =>
    match tableau.entering? eps firstPhase with
    | none => (.optimal, tableau, pivots + 1)
    | some column =>
      match tableau.leaving? eps column with
      | none => (.unbounded, tableau, pivots + 1)
      | some (row, _) => run eps firstPhase pivots (tableau.pivot eps row column)

/-- The second phase, from a tableau whose basic solution meets the constraints. -/
def secondPhase (eps : α) (objective : List α) (pivots : Nat) (tableau : Tableau α n m k) :
    Outcome α × Nat :=
  match run eps false pivots (tableau.withCost eps (objectiveCost objective)) with
  | (.optimal, last, left) =>
    let point := last.point.toList
    (.optimal point (Scalar.dot objective point), left)
  | (.unbounded, _, left) => (.unbounded, left)
  | (.exhausted, _, left) => (.pivotLimit, left)

end Tableau

open Tableau

variable {α : Type} [Scalar α]

/-- The largest value of the objective. -/
def maximize (settings : Settings α) (program : Program α) : Solution α :=
  let eps := settings.tolerance
  let start := Tableau.ofProgram program
  let (outcome, left) :=
    if artificials program = 0 then
      start.secondPhase eps program.objective settings.maxPivots
    else
      match run eps true settings.maxPivots (start.withCost eps artificialCost) with
      | (.exhausted, _, left) => (.pivotLimit, left)
      | (_, last, left) =>
        if eps < -last.cost.side then (.infeasible, left)
        else (last.driveOut eps).secondPhase eps program.objective left
  { outcome, pivots := settings.maxPivots - left }

/-- The smallest value of the objective, which is the largest of its negation, negated. -/
def minimize (settings : Settings α) (program : Program α) : Solution α :=
  let solution := maximize settings { program with objective := program.objective.map (-·) }
  match solution.outcome with
  | .optimal point value => { solution with outcome := .optimal point (-value) }
  | _ => solution

end MarkovPlanning.Linear
