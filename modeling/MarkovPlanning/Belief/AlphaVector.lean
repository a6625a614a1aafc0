/-
Alpha vectors.

An alpha vector is a linear function of the belief, given by one coefficient per
state, together with the action whose value it states.  A state without a
coefficient contributes nothing.  The sum of two vectors adds their coefficients
and keeps the action of the left one, and the cross sum of two sets holds every
sum of a member of one and a member of the other.
-/
import MarkovPlanning.Belief.Basic

namespace MarkovPlanning

/-- An action and its value as a linear function of the belief. -/
structure AlphaVector (α : Type) where
  action : Action
  values : EntityMap .state α := ∅

namespace AlphaVector

variable {α : Type} [Scalar α]

/-- Sets the coefficient of a state. -/
def set (alpha : AlphaVector α) (state : State) (value : α) : AlphaVector α :=
  { alpha with values := alpha.values.insert state value }

/-- The coefficient of a state, zero unless it was set. -/
def get (alpha : AlphaVector α) (state : State) : α := alpha.values.getD state 0

/-- The vector that results from setting one coefficient after the other. -/
def ofList (action : Action) (values : List (State × α)) : AlphaVector α :=
  values.foldl (fun alpha value => alpha.set value.1 value.2) { action }

/-- The states and their coefficients, in the order of the states. -/
def toList (alpha : AlphaVector α) : List (State × α) := alpha.values.toList

/-- Adds to the coefficient of a state. -/
def addAt (alpha : AlphaVector α) (state : State) (value : α) : AlphaVector α :=
  { alpha with values := alpha.values.alter state fun old => some (old.getD 0 + value) }

/-- State by state, over the states of either vector. -/
instance : Add (AlphaVector α) where
  add alpha beta := beta.toList.foldl (fun sum value => sum.addAt value.1 value.2) alpha

/-- The value at a belief. -/
def dot (alpha : AlphaVector α) (belief : Belief α) : α :=
  Scalar.sum (alpha.toList.map fun value => belief.get value.1 * value.2)

/-- Whether two vectors have one action and, state by state, coefficients that compare as
equal. -/
def agrees (alpha beta : AlphaVector α) : Bool :=
  alpha.action == beta.action &&
    (alpha.toList.length == beta.toList.length &&
      (alpha.toList.zip beta.toList).all fun (value, value') =>
        value.1 == value'.1 && Scalar.agrees value.2 value'.2)

end AlphaVector

/-- Every sum of a member of `left` and a member of `right`, the left one varying slowest.  An
empty list leaves the other as it is. -/
def crossSum {β : Type} [Add β] (left right : List β) : List β :=
  if left.isEmpty then right
  else if right.isEmpty then left
  else left.flatMap fun u => right.map fun v => u + v

end MarkovPlanning
