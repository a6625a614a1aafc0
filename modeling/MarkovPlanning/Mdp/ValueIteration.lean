/-
Value iteration.

Over a finite span every epoch is backed up once, from the last to the first, and
each backup sees the values of the epoch after it.  Over an endless span the
values are improved in sweeps, in place: a state later in the order already sees
the new values of the states before it.  The sweeps end when the residual is
within its limit, or when they are used up.
-/
import MarkovPlanning.Mdp.Stationary

namespace MarkovPlanning

/-- Settings of value iteration. -/
structure ValueIteration (α : Type) where
  /-- The error of the values at which an endless search may stop. -/
  tolerance : α
  maxSweeps : Nat

namespace ValueIteration

variable {α : Type} [Scalar α] {n m : Nat}

/-- A thousandth, in at most a hundred thousand sweeps. -/
def standard : ValueIteration α where
  tolerance := 0.001
  maxSweeps := 100000

/-! ### Finite spans -/

/-- The values with a number of decisions to go, and the choices of those decisions, the last
decision first. -/
def stages (model : DenseMdp α n m) :
    (decisions : Nat) → Vector α n × Vector (Vector (Fin m) n) decisions
  | 0 => (Vector.replicate n 0, #v[])
  | decisions + 1 =>
    let (values, choices) := stages model decisions
    let backups := model.backups values
    (backups.map (·.value), choices.push (backups.map (·.action)))

/-- The solution over a span with a last epoch. -/
def solveFinite (model : DenseMdp α n m) (span : Span) (h : 0 < span.epochs) : MdpSolution α :=
  let (values, choices) := stages model span.epochs
  { policy :=
      { span
        epochs := (choices.reverse.map model.mapping).cast (by simp only [Span.slots]; omega) }
    values := model.valueMap values
    iterations := span.epochs
    converged := true }

/-! ### Endless spans -/

/-- Values and choices in the course of a sweep, and the largest change so far. -/
structure Sweep (α : Type) (n m : Nat) where
  values : Vector α n
  choice : Vector (Fin m) n
  residual : α

/-- Backs up one state in place. -/
def Sweep.visit (model : DenseMdp α n m) (sweep : Sweep α n m) (state : Fin n) : Sweep α n m :=
  let backup := model.backup sweep.values state
  let change := Scalar.abs (backup.value - sweep.values.get state)
  { values := sweep.values.set state.val backup.value state.isLt
    choice := sweep.choice.set state.val backup.action state.isLt
    residual := Scalar.greater sweep.residual change }

/-- Backs up every state in place, in order. -/
def sweep (model : DenseMdp α n m) (values : Vector α n) (choice : Vector (Fin m) n) :
    Sweep α n m :=
  (List.finRange n).foldl (Sweep.visit model) { values, choice, residual := 0 }

/-- Sweeps until the residual is within the limit.  `sweeps` is how many may still be made and
`made` how many were. -/
def improve (model : DenseMdp α n m) (limit : Option α) :
    (sweeps made : Nat) → Vector α n → Vector (Fin m) n → Stationary α n m
  | 0, made, values, choice => { choice, values, iterations := made, converged := false }
  | sweeps + 1, made, values, choice =>
    let after := sweep model values choice
    if settled limit after.residual then
      { choice := after.choice
        values := after.values
        iterations := made + 1
        converged := true }
    else improve model limit sweeps (made + 1) after.values after.choice

/-- The best stationary choice found from values of zero. -/
def searchStationary (solver : ValueIteration α) (model : DenseMdp α n m) : Stationary α n m :=
  improve model (residualLimit solver.tolerance model.discount) solver.maxSweeps 0
    (Vector.replicate n 0) (Vector.replicate n model.firstAction)

/-- Solves a decision process. -/
def solve (solver : ValueIteration α) (mdp : Mdp α) : Except ShapeFault (MdpSolution α) := do
  let model ← mdp.dense
  let span := mdp.horizon.toSpan
  if h : 0 < span.epochs then
    return solveFinite model span h
  else
    return (solver.searchStationary model).solution model span

end ValueIteration

end MarkovPlanning
