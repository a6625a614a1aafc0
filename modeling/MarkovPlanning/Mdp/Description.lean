/-
Decision processes as they are put together.

States and actions are added one by one, and the tables are written entry by entry.
Rewards are written for an action in a state, or for the state that follows as
well.
-/
import MarkovPlanning.Entity.Buckets
import MarkovPlanning.Mdp.Basic

namespace MarkovPlanning

/-- What is written about the rewards of a decision process. -/
inductive RewardWrites (α : Type) where
  /-- Rewards that do not depend on the state that follows. -/
  | ofActions (writes : List (Pattern [.state, .action] × α))
  | ofTransitions (writes : List (Pattern [.state, .action, .state] × α))

/-- What a decision process is made of, in the order in which it is given. -/
structure MdpDescription (α : Type) where
  states : List State
  actions : List Action
  transitions : List (Pattern [.state, .action, .state] × α)
  rewards : RewardWrites α
  horizon : Horizon α

variable {α : Type} [Scalar α]

/-- The table that is written. -/
def RewardWrites.table : RewardWrites α → TransitionRewards α
  | ofActions writes => ActionRewards.toTransitionRewards (.ofList writes)
  | ofTransitions writes => .ofList writes

/-- The decision process that is put together. -/
def MdpDescription.mdp (description : MdpDescription α) : Mdp α where
  states := (Buckets.ofList description.states).collection
  actions := (Buckets.ofList description.actions).collection
  transitions := .ofList description.transitions
  rewards := description.rewards.table
  horizon := description.horizon

end MarkovPlanning
