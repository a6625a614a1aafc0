/-
Policy iteration.

A choice of one action per state is improved until it no longer changes.  The
exact variant finds the values of the choice by solving a linear system and then
switches every state to a better action.  The modified variant approximates the
values of the choice by sweeps, the last of which backs every state up and
switches actions on the way.  An action is only given up for one that is better
by more than rounding could account for.
-/
import MarkovPlanning.Linear.System
import MarkovPlanning.Mdp.Stationary

namespace MarkovPlanning

/-- How the values of a choice are found. -/
inductive Evaluation where
  /-- By solving a linear system. -/
  | exact
  /-- By blocks of sweeps. -/
  | sweeps (perBlock : Nat)
deriving DecidableEq, Repr

/-- Settings of policy iteration. -/
structure PolicyIteration (α : Type) where
  evaluation : Evaluation
  /-- The error of the values at which blocks of sweeps may stop. -/
  tolerance : α
  maxRounds : Nat

namespace PolicyIteration

variable {α : Type} [Scalar α] {n m : Nat}

/-- A thousandth, in at most a hundred thousand rounds. -/
def standard (evaluation : Evaluation) : PolicyIteration α where
  evaluation
  tolerance := 0.001
  maxRounds := 100000

/-- What another action has to be better by. -/
def improvementThreshold : α := 1e-12

/-! ### Exact evaluation -/

/-- The equation of one state: its value less the discounted values of what follows is the
expected reward. -/
def valueEquation (model : DenseMdp α n m) (choice : Vector (Fin m) n) (state : Fin n) :
    Linear.Equation α n :=
  let transitions := (model.transitions.get state).get (choice.get state)
  { coefficients := transitions.foldl
      (fun row transition =>
        row.set transition.next.val
          (row.get transition.next - model.discount * transition.probability)
          transition.next.isLt)
      (Vector.ofFn fun column => if column = state then 1 else 0)
    side := transitions.foldl
      (fun side transition => side + transition.probability * transition.reward) 0 }

/-- The values of following a choice for ever. -/
def evaluate (model : DenseMdp α n m) (choice : Vector (Fin m) n) :
    Except NumericFault (Vector α n) :=
  Linear.System.solve (Vector.ofFn (valueEquation model choice))

/-- The action a state should switch to, if one is better than its own. -/
def switch? (model : DenseMdp α n m) (values : Vector α n) (choice : Vector (Fin m) n)
    (state : Fin n) : Option (Fin m) :=
  let backup := model.backup values state
  if model.actionValue values state (choice.get state) + improvementThreshold < backup.value then
    some backup.action
  else none

/-- Evaluates and switches until no state switches.  `rounds` is how many may still be made and
`made` how many were. -/
def improveExactly (model : DenseMdp α n m) :
    (rounds made : Nat) → Vector (Fin m) n → Except NumericFault (Stationary α n m)
  | 0, made, choice => do
    let values ← evaluate model choice
    return { choice, values, iterations := made, converged := false }
  | rounds + 1, made, choice => do
    let values ← evaluate model choice
    let switches := Vector.ofFn (switch? model values choice)
    if switches.all Option.isNone then
      return { choice, values, iterations := made + 1, converged := true }
    else
      improveExactly model rounds (made + 1)
        (Vector.zipWith (fun switch action => switch.getD action) switches choice)

/-! ### Evaluation by sweeps -/

/-- The values after one sweep that follows the choice, and the best action where there is no
choice yet. -/
def followOnce (model : DenseMdp α n m) (choice : Vector (Option (Fin m)) n)
    (values : Vector α n) : Vector α n :=
  Vector.ofFn fun state =>
    match choice.get state with
    | some action => model.actionValue values state action
    | none => (model.backup values state).value

/-- The action of a state if it is as good as the best one. -/
def kept? (model : DenseMdp α n m) (values : Vector α n) (choice : Vector (Option (Fin m)) n)
    (state : Fin n) : Option (Fin m) :=
  (choice.get state).filter fun action =>
    (model.backup values state).value ≤
      model.actionValue values state action + improvementThreshold

/-- The largest distance between two values of one state. -/
def residual (values after : Vector α n) : α :=
  (List.finRange n).foldl
    (fun residual state =>
      Scalar.greater residual (Scalar.abs (after.get state - values.get state)))
    0

/-- Makes blocks of sweeps until a block switches no action and, if later rewards count for
less, its residual is within the limit. -/
def improveBySweeps (model : DenseMdp α n m) (limit : Option α) (perBlock : Nat) :
    (rounds made : Nat) → Vector α n → Vector (Option (Fin m)) n → Stationary α n m
  | 0, made, values, choice =>
    { choice := choice.map (·.getD model.firstAction)
      values
      iterations := made
      converged := false }
  | rounds + 1, made, values, choice =>
    let values := Nat.repeat (followOnce model choice) (perBlock - 1) values
    let backups := model.backups values
    let kept := Vector.ofFn (kept? model values choice)
    let after := backups.map (·.value)
    let choice := Vector.zipWith (fun kept backup => kept <|> some backup.action) kept backups
    if kept.all Option.isSome &&
        (1 ≤ model.discount || settled limit (residual values after)) then
      { choice := choice.map (·.getD model.firstAction)
        values := after
        iterations := made + 1
        converged := true }
    else improveBySweeps model limit perBlock rounds (made + 1) after choice

/-! ### The solver -/

/-- Solves a decision process over an endless span. -/
def solve (solver : PolicyIteration α) (mdp : Mdp α) : Except Error (MdpSolution α) := do
  if mdp.horizon.isFinite then
    throw (.shape .finiteHorizon)
  if solver.evaluation = .sweeps 0 then
    throw (.shape .noSweeps)
  let model ← mdp.dense
  let found ←
    match solver.evaluation with
    | .exact =>
      liftM (improveExactly model solver.maxRounds 0
        (Vector.replicate mdp.states.size model.firstAction))
    | .sweeps perBlock =>
      pure (improveBySweeps model (residualLimit solver.tolerance model.discount) perBlock
        solver.maxRounds 0 (Vector.replicate mdp.states.size 0)
        (Vector.replicate mdp.states.size none))
  return found.solution model mdp.horizon.toSpan

end PolicyIteration

end MarkovPlanning
