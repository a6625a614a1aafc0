/-
Stationary solutions, and when a search for one may stop.

A search over an endless span ends with one choice per state for all epochs.  It
watches the residual, which is the largest change of a value in one sweep.  When
later rewards count for less, a small residual bounds the error of the values;
when they count for nothing, one sweep is exact and any residual will do.
-/
import MarkovPlanning.Mdp.Dense

namespace MarkovPlanning

/-- One choice for all epochs, its values, and how the search for it went. -/
structure Stationary (α : Type) (n m : Nat) where
  choice : Vector (Fin m) n
  values : Vector α n
  iterations : Nat
  converged : Bool

/-- A stationary choice as a solution over an endless span. -/
def Stationary.solution {α : Type} {n m : Nat} (model : DenseMdp α n m) (span : Span)
    (found : Stationary α n m) : MdpSolution α where
  policy := { span, epochs := Vector.replicate span.slots (model.mapping found.choice) }
  values := model.valueMap found.values
  iterations := found.iterations
  converged := found.converged

/-- The residual at which a sweep counts as settled, if a residual can be too large: the
tolerance times `(1 - discount) / discount`. -/
def residualLimit {α : Type} [Scalar α] (tolerance discount : α) : Option α :=
  if discount ≤ 0 then none else some (tolerance * (1 - discount) / discount)

/-- Whether a residual is within the limit. -/
def settled {α : Type} [Scalar α] (limit : Option α) (residual : α) : Bool :=
  match limit with
  | none => true
  | some limit => residual ≤ limit

end MarkovPlanning
