/-
Hidden processes as they are put together.

States, actions and observations are added one by one, and the tables are written
entry by entry.
-/
import MarkovPlanning.Entity.Buckets
import MarkovPlanning.Pomdp.Basic

namespace MarkovPlanning

/-- What a hidden process is made of, in the order in which it is given. -/
structure PomdpDescription (α : Type) where
  states : List State
  actions : List Action
  observations : List Observation
  transitions : List (Pattern [.state, .action, .state] × α)
  observationChances : List (Pattern [.action, .state, .observation] × α)
  rewards : List (Pattern [.state, .action, .state, .observation] × α)
  horizon : Horizon α

/-- The hidden process that is put together. -/
def PomdpDescription.pomdp {α : Type} [Scalar α] (description : PomdpDescription α) :
    Pomdp α where
  states := (Buckets.ofList description.states).collection
  actions := (Buckets.ofList description.actions).collection
  observations := (Buckets.ofList description.observations).collection
  transitions := .ofList description.transitions
  observationChances := .ofList description.observationChances
  rewards := .ofList description.rewards
  horizon := description.horizon

end MarkovPlanning
