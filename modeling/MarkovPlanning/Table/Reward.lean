/-
Tables of rewards.

Rewards are kept as written, and what nothing was written about is worth zero.  A
reward table also keeps the least and the greatest reward ever written to it,
overwritten ones included, which is what an error bound needs to know about a
problem.  Rewards may be keyed by the state and the action alone, by the state
that follows as well, or by the observation made there on top of that.
-/
import MarkovPlanning.Table.Basic
import MarkovPlanning.Scalar

namespace MarkovPlanning

/-- The least and the greatest of the values seen.  Values that compare with nothing do not
count. -/
structure Bounds (α : Type) where
  least : Option α := none
  greatest : Option α := none

namespace Bounds

variable {α : Type} [Scalar α]

/-- Joins a value to the values seen so far. -/
def pick (choose : α → α → α) (seen : Option α) (value : α) : Option α :=
  match seen with
  | some best => some (choose best value)
  | none => if value ≤ value then some value else none

def join (bounds : Bounds α) (value : α) : Bounds α where
  least := pick Scalar.lesser bounds.least value
  greatest := pick Scalar.greater bounds.greatest value

/-- The least value in double precision.  Where there is none it is the infinity above all
numbers. -/
protected def min (bounds : Bounds Float) : Float := bounds.least.getD (1 / 0)

/-- The greatest value in double precision.  Where there is none it is the infinity below all
numbers. -/
protected def max (bounds : Bounds Float) : Float := bounds.greatest.getD (-1 / 0)

end Bounds

/-- A sparse table of rewards and the range of what was written to it. -/
structure RewardTable (kinds : List Kind) (α : Type) where
  table : Table kinds α := {}
  bounds : Bounds α := {}

namespace RewardTable

variable {kinds : List Kind} {α : Type} [Scalar α]

/-- Writes a reward. -/
def insert (rewards : RewardTable kinds α) (pattern : Pattern kinds) (reward : α) :
    RewardTable kinds α where
  table := rewards.table.insert pattern reward
  bounds := rewards.bounds.join reward

/-- The table of a list of writes. -/
def ofList (writes : List (Pattern kinds × α)) : RewardTable kinds α :=
  writes.foldl (fun rewards write => rewards.insert write.1 write.2) {}

/-- The reward of a key, zero unless some written pattern covers it. -/
def get (rewards : RewardTable kinds α) (key : Pattern kinds) : α :=
  (rewards.table.resolve? key).getD 0

/-- The same rewards for keys with one more position, which does not matter to them. -/
def widen (rewards : RewardTable kinds α) (kind : Kind) : RewardTable (kinds ++ [kind]) α where
  table := rewards.table.widen kind
  bounds := rewards.bounds

end RewardTable

/-- Rewards of an action in a state. -/
abbrev ActionRewards := RewardTable [.state, .action]

/-- Rewards of an action in a state that leads to another state. -/
abbrev TransitionRewards := RewardTable [.state, .action, .state]

/-- Rewards of an action in a state that leads to another state and an observation there. -/
abbrev ObservationRewards := RewardTable [.state, .action, .state, .observation]

namespace ActionRewards

variable {α : Type} [Scalar α]

def reward (rewards : ActionRewards α) (state : State) (action : Action) : α :=
  rewards.get (.cons (some state) (.cons (some action) .nil))

/-- Rewards that do not depend on the state that follows, as rewards that might. -/
def toTransitionRewards (rewards : ActionRewards α) : TransitionRewards α :=
  RewardTable.widen rewards .state

end ActionRewards

namespace TransitionRewards

variable {α : Type} [Scalar α]

def reward (rewards : TransitionRewards α) (state : State) (action : Action) (next : State) : α :=
  rewards.get (.cons (some state) (.cons (some action) (.cons (some next) .nil)))

end TransitionRewards

namespace ObservationRewards

variable {α : Type} [Scalar α]

def reward (rewards : ObservationRewards α) (state : State) (action : Action) (next : State)
    (observation : Observation) : α :=
  rewards.get
    (.cons (some state) (.cons (some action) (.cons (some next) (.cons (some observation) .nil))))

end ObservationRewards

end MarkovPlanning
