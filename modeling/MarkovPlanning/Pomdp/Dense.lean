/-
Hidden processes in numbers, and the backup of a set of alpha vectors.

The tables are resolved once, into lists over the states in the order of their
collection.  An alpha vector is then a list of coefficients with the action whose
value it states.

Suppose a set of vectors gives the value of what follows.  An action is followed by
some observation, and for each observation one of the vectors is the right one to
go on with.  `project` gives what a vector is worth before the action if it is
gone on with after one observation, and `ActionModel.backup` adds up one projection
per observation, for every way of choosing them, on top of the immediate reward.
-/
import MarkovPlanning.Belief.AlphaVector
import MarkovPlanning.Pomdp.Basic

namespace MarkovPlanning

/-- An action and a coefficient for each state, in the order of the states. -/
structure DenseAlpha (α : Type) where
  action : Action
  values : List α
deriving DecidableEq

namespace DenseAlpha

variable {α : Type} [Scalar α]

/-- The value at a belief over the same states. -/
def dot (alpha : DenseAlpha α) (belief : List α) : α := Scalar.dot alpha.values belief

/-- State by state; the action is that of the left one. -/
instance : Add (DenseAlpha α) where
  add alpha beta := { alpha with values := List.zipWith (· + ·) alpha.values beta.values }

end DenseAlpha

/-- What one action does. -/
structure ActionModel (α : Type) where
  action : Action
  /-- The expected immediate reward in each state. -/
  rewards : List α
  /-- For each state, the chances of the states that may follow. -/
  transitions : List (List α)
  /-- For each observation, its chances in the states the action may lead to. -/
  observations : List (List α)

/-- A hidden process with its tables resolved. -/
structure DensePomdp (α : Type) where
  states : List State
  observations : List Observation
  actions : List (ActionModel α)
  discount : α

namespace Pomdp

variable {α : Type} [Scalar α]

/-- The expected immediate reward of an action in a state.  What cannot happen adds nothing,
whatever its reward. -/
def expectedReward (pomdp : Pomdp α) (state : State) (action : Action) : α :=
  pomdp.states.toList.foldl
    (fun expected next =>
      let chance := pomdp.transitions.chance state action next
      if Scalar.isZero chance then expected
      else
        expected + chance * pomdp.observations.toList.foldl
          (fun inner observation =>
            let chance := pomdp.observationChances.chance action next observation
            if Scalar.isZero chance then inner
            else inner + chance * pomdp.rewards.reward state action next observation)
          0)
    0

/-- Resolves the tables for one action. -/
def denseAction (pomdp : Pomdp α) (action : Action) : ActionModel α where
  action
  rewards := pomdp.states.toList.map fun state => pomdp.expectedReward state action
  transitions := pomdp.states.toList.map fun state =>
    pomdp.states.toList.map fun next => pomdp.transitions.chance state action next
  observations := pomdp.observations.toList.map fun observation =>
    pomdp.states.toList.map fun next =>
      pomdp.observationChances.chance action next observation

/-- Resolves the tables, unless there is nothing to plan for. -/
def dense (pomdp : Pomdp α) : Except ShapeFault (DensePomdp α) :=
  if pomdp.states.isEmpty || pomdp.actions.isEmpty || pomdp.observations.isEmpty then
    .error (.emptyPomdp pomdp.states.size pomdp.actions.size pomdp.observations.size)
  else
    .ok {
      states := pomdp.states.toList
      observations := pomdp.observations.toList
      actions := pomdp.actions.toList.map pomdp.denseAction
      discount := pomdp.horizon.discount }

end Pomdp

namespace ActionModel

variable {α : Type} [Scalar α]

/-- The immediate reward as a vector. -/
def immediate (model : ActionModel α) : DenseAlpha α where
  action := model.action
  values := model.rewards

/-- The value of making an observation and going on with a vector, before the action.  `chances`
are those of the observation. -/
def project (model : ActionModel α) (discount : α) (chances : List α) (alpha : List α) :
    DenseAlpha α where
  action := model.action
  values := model.transitions.map fun row =>
    discount * ((row.zip (chances.zip alpha)).foldl
      (fun value (t, o, x) => value + t * o * x) 0)

/-- Every way of going on with a vector of `prior` after each observation.  If there is nothing
to go on with, the immediate reward is all. -/
def backup (model : ActionModel α) (discount : α) (prior : List (DenseAlpha α)) :
    List (DenseAlpha α) :=
  model.observations.foldl
    (fun sums chances =>
      crossSum sums (prior.map fun alpha => model.project discount chances alpha.values))
    [model.immediate]

end ActionModel

namespace DensePomdp

variable {α : Type} [Scalar α]

/-- The backups of a set of vectors for every action. -/
def backups (model : DensePomdp α) (prior : List (DenseAlpha α)) : List (List (DenseAlpha α)) :=
  model.actions.map fun action => action.backup model.discount prior

/-- A vector over the entities behind the numbers. -/
def sparse (model : DensePomdp α) (alpha : DenseAlpha α) : AlphaVector α :=
  .ofList alpha.action (model.states.zip alpha.values)

end DensePomdp

end MarkovPlanning
