/-
How far ahead a planner looks.

A span is a number of decision epochs, counted from zero, or has no end.  A
horizon is a span with the factor by which each later reward counts less.  A
policy over an endless span is stationary: it keeps one slot that serves every
epoch.
-/
import MarkovPlanning.Scalar

namespace MarkovPlanning

/-- How many decisions are made. -/
structure Span where
  /-- The number of decision epochs, or zero when there is no last one. -/
  epochs : Nat
deriving DecidableEq, Repr, Inhabited

namespace Span

def isFinite (span : Span) : Bool := 0 < span.epochs

theorem isFinite_eq_false {span : Span} (h : span.epochs = 0) : span.isFinite = false := by
  rw [isFinite, h]
  rfl

/-- The epochs a policy keeps apart: each of a finite span, one for all of an endless one. -/
def slots (span : Span) : Nat := max span.epochs 1

theorem slots_pos (span : Span) : 0 < span.slots := by
  simp only [slots]; omega

/-- The epoch after `epoch`.  An endless span has a single epoch. -/
def next (span : Span) (epoch : Nat) : Nat := if span.isFinite then epoch + 1 else epoch

end Span

/-- A span and a discount factor. -/
structure Horizon (α : Type) extends Span where
  /-- What a reward one epoch later is worth. -/
  discount : α
deriving Inhabited

namespace Horizon

variable {α : Type} [Scalar α]

/-- A horizon of `epochs` decisions without discount.  No decisions means no last decision. -/
def finite (epochs : Nat) : Horizon α := { epochs, discount := 1 }

/-- The same span with another discount factor, brought into the unit interval. -/
def withDiscount (horizon : Horizon α) (discount : α) : Horizon α :=
  { horizon with discount := Scalar.clamp01 discount }

/-- An endless horizon with a discount factor. -/
def infinite (discount : α) : Horizon α := (finite 0).withDiscount discount

end Horizon

end MarkovPlanning
