/-
Beliefs over the hidden state.

A belief gives a probability to some of the states, and zero to all others.
Probabilities are brought into the unit interval when they are set; whether they
add up to one is asked by `isDistribution` and not required.
-/
import MarkovPlanning.Entity.Collection
import MarkovPlanning.Scalar

namespace MarkovPlanning

/-- A probability for each of finitely many states. -/
structure Belief (α : Type) where
  masses : EntityMap .state α := ∅

namespace Belief

variable {α : Type} [Scalar α]

/-- Sets the probability of a state, brought into the unit interval. -/
def set (belief : Belief α) (state : State) (probability : α) : Belief α where
  masses := belief.masses.insert state (Scalar.clamp01 probability)

/-- The probability of a state, zero unless it was set. -/
def get (belief : Belief α) (state : State) : α := belief.masses.getD state 0

/-- The belief that results from setting one probability after the other. -/
def ofList (masses : List (State × α)) : Belief α :=
  masses.foldl (fun belief mass => belief.set mass.1 mass.2) {}

/-- The belief that all states of a collection are equally likely. -/
def uniform (states : Collection .state) : Belief α :=
  ofList (states.toList.map fun state => (state, 1 / (states.size : α)))

/-- The states and their probabilities, in the order of the states. -/
def toList (belief : Belief α) : List (State × α) := belief.masses.toList

/-- The sum of all probabilities. -/
def total (belief : Belief α) : α := Scalar.sum (belief.toList.map (·.2))

/-- Whether no probability is negative and all add up to one, but for rounding. -/
def isDistribution (belief : Belief α) : Bool :=
  belief.toList.all (fun mass => 0 ≤ mass.2) && Scalar.abs (belief.total - 1) ≤ 1e-9

/-- Whether two beliefs set the same states to values that compare as equal. -/
def agrees (belief other : Belief α) : Bool :=
  belief.toList.length == other.toList.length &&
    (belief.toList.zip other.toList).all fun (mass, mass') =>
      mass.1 == mass'.1 && Scalar.agrees mass.2 mass'.2

end Belief

end MarkovPlanning
