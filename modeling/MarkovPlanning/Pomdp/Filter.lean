/-
What an observation says about the hidden state.

After an action and an observation, the belief in a state is in proportion to the
chance of coming to it and making the observation there.  An observation that
cannot be made under a belief says nothing about what to believe.
-/
import MarkovPlanning.Belief.Basic
import MarkovPlanning.Pomdp.Basic

namespace MarkovPlanning.Pomdp

variable {α : Type} [Scalar α]

/-- The chance of coming to a state by an action. -/
def reach (pomdp : Pomdp α) (belief : Belief α) (action : Action) (next : State) : α :=
  Scalar.sum (belief.toList.map fun (state, probability) =>
    probability * pomdp.transitions.chance state action next)

/-- The chance of coming to a state by an action and making an observation there, if it is
positive. -/
def mass? (pomdp : Pomdp α) (belief : Belief α) (action : Action) (observation : Observation)
    (next : State) : Option (State × α) :=
  let chance := pomdp.observationChances.chance action next observation
  if Scalar.isZero chance then none
  else
    let mass := chance * pomdp.reach belief action next
    if 0 < mass then some (next, mass) else none

/-- The belief after an action and an observation. -/
def update (pomdp : Pomdp α) (belief : Belief α) (action : Action)
    (observation : Observation) : Except NumericFault (Belief α) :=
  let masses := pomdp.states.toList.filterMap (pomdp.mass? belief action observation)
  let total : α := Scalar.sum (masses.map (·.2))
  if total ≤ 0 then .error (.impossible observation action)
  else .ok (.ofList (masses.map fun (state, mass) => (state, mass / total)))

end MarkovPlanning.Pomdp
