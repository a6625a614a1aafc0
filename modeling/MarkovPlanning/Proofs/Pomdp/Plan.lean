/-
What executing a tree of decisions earns.

From a hidden state, the action at the root leads to some state and an observation
there, which earns a reward and picks the branch that is executed next; a later
reward counts less.  `DecisionNode.worth` is the expectation of the rewards so
earned, computed over the tables as they are written.

A `Plan` of some decisions is a tree that always has the next decision at hand: an
action of the process at each node, and one subtree for each observation until
the decisions are used up.
-/
import MarkovPlanning.Proofs.Pomdp.Filter
import MarkovPlanning.Pomdp.Dense
import Mathlib

namespace MarkovPlanning

variable {K : Type} [Field K] [LinearOrder K]

namespace DecisionNode

mutual

/-- The expected discounted reward of executing a tree from a state.  Where no decision is left,
nothing more is earned. -/
def worth (pomdp : Pomdp K) : DecisionNode → State → K
  | node none _, _ => 0
  | node (some action) branches, state =>
    ∑ next ∈ pomdp.states.members, pomdp.transitions.chance state action next *
      ∑ observation ∈ pomdp.observations.members,
        pomdp.observationChances.chance action next observation *
          (pomdp.rewards.reward state action next observation +
            pomdp.horizon.discount * worthAfter pomdp branches observation next)

/-- The expected discounted reward of executing the branch of an observation from a state. -/
def worthAfter (pomdp : Pomdp K) :
    List (Observation × DecisionNode) → Observation → State → K
  | [], _, _ => 0
  | (label, child) :: branches, observation, state =>
    if label = observation then worth pomdp child state
    else worthAfter pomdp branches observation state

end

/-- With a branch for each observation, the one of the observation made is executed. -/
theorem worthAfter_map {pomdp : Pomdp K} (children : Observation → DecisionNode)
    {observation : Observation} : ∀ {observations : List Observation},
      observation ∈ observations → worthAfter pomdp
          (observations.map fun observation => (observation, children observation)) observation
        = worth pomdp (children observation) := by
  intro observations
  induction observations with
  | nil => intro h; simp at h
  | cons label rest ih =>
      intro h
      funext state
      rw [List.map_cons, worthAfter]
      by_cases hlabel : label = observation
      · subst hlabel
        rw [if_pos rfl]
      · rw [if_neg hlabel, ih ((List.mem_cons.mp h).resolve_left fun heq => hlabel heq.symm)]

end DecisionNode

namespace Pomdp

open DecisionNode (worth worthAfter)

/-- The expected discounted reward of executing a tree from a belief. -/
def treeReward (pomdp : Pomdp K) (tree : DecisionNode) (belief : Belief K) : K :=
  pomdp.expect belief.get (tree.worth pomdp)

variable {pomdp : Pomdp K} {action : Action}

/-! ### One decision -/

theorem expectedReward_eq (state : State) :
    pomdp.expectedReward state action = ∑ next ∈ pomdp.states.members,
      pomdp.transitions.chance state action next *
        ∑ observation ∈ pomdp.observations.members,
          pomdp.observationChances.chance action next observation *
            pomdp.rewards.reward state action next observation := by
  -- a step that skips what cannot happen adds zero
  have hskip : ∀ (chance x total : K),
      (if Scalar.isZero chance then total else total + chance * x) = total + chance * x := by
    intro chance x total
    by_cases hzero : chance = 0
    · rw [if_pos (Scalar.isZero_iff.mpr hzero), hzero, zero_mul, add_zero]
    · rw [if_neg fun h => hzero (Scalar.isZero_iff.mp h)]
  unfold expectedReward
  simp only [hskip, Scalar.foldl_add_eq, zero_add, Collection.sum_toList]

/-- What an action is worth in a state, by what is had after each observation. -/
def lookAhead (pomdp : Pomdp K) (action : Action) (after : Observation → State → K)
    (state : State) : K :=
  pomdp.expectedReward state action
    + pomdp.horizon.discount * ∑ observation ∈ pomdp.observations.members,
        ∑ next ∈ pomdp.states.members, pomdp.transitions.chance state action next
          * (pomdp.observationChances.chance action next observation * after observation next)

theorem lookAhead_congr {after after' : Observation → State → K}
    (h : ∀ observation ∈ pomdp.observations, ∀ next ∈ pomdp.states,
      after observation next = after' observation next) (state : State) :
    pomdp.lookAhead action after state = pomdp.lookAhead action after' state := by
  refine congrArg _ (congrArg _ (Finset.sum_congr rfl fun observation hobservation => ?_))
  refine Finset.sum_congr rfl fun next hnext => ?_
  rw [h observation (Collection.mem_members.mp hobservation) next
    (Collection.mem_members.mp hnext)]

/-- **An expectation goes on with the masses of the observations.** -/
theorem expect_lookAhead (weights : State → K) (after : Observation → State → K) :
    pomdp.expect weights (pomdp.lookAhead action after)
      = pomdp.expect weights (fun state => pomdp.expectedReward state action)
        + pomdp.horizon.discount * ∑ observation ∈ pomdp.observations.members,
            pomdp.expect (pomdp.mass weights action observation) (after observation) := by
  unfold lookAhead
  rw [expect_add, expect_mul_left, expect_sum]
  simp only [expect_mass]

/-- It is better to have what is expected to be better after each observation. -/
theorem expect_lookAhead_le [IsStrictOrderedRing K] (h : pomdp.Clamped) {weights : State → K}
    {after after' : Observation → State → K}
    (hle : ∀ observation ∈ pomdp.observations,
      pomdp.expect (pomdp.mass weights action observation) (after observation)
        ≤ pomdp.expect (pomdp.mass weights action observation) (after' observation)) :
    pomdp.expect weights (pomdp.lookAhead action after)
      ≤ pomdp.expect weights (pomdp.lookAhead action after') := by
  rw [expect_lookAhead, expect_lookAhead]
  refine add_le_add_right (mul_le_mul_of_nonneg_left ?_ h.horizon.1) _
  exact Finset.sum_le_sum fun observation hobservation =>
    hle observation (Collection.mem_members.mp hobservation)

/-- The same, transition by transition. -/
theorem lookAhead_eq (after : Observation → State → K) (state : State) :
    pomdp.lookAhead action after state = ∑ next ∈ pomdp.states.members,
      pomdp.transitions.chance state action next *
        ∑ observation ∈ pomdp.observations.members,
          pomdp.observationChances.chance action next observation *
            (pomdp.rewards.reward state action next observation +
              pomdp.horizon.discount * after observation next) := by
  rw [lookAhead, expectedReward_eq, Finset.sum_comm, Finset.mul_sum, ← Finset.sum_add_distrib]
  refine Finset.sum_congr rfl fun next _ => ?_
  rw [Finset.mul_sum, Finset.mul_sum, Finset.mul_sum, ← Finset.sum_add_distrib]
  refine Finset.sum_congr rfl fun observation _ => ?_
  ring

/-- **A tree is worth its first reward, and after each observation what its branch is worth.** -/
theorem worth_node (branches : List (Observation × DecisionNode)) (state : State) :
    worth pomdp (.node (some action) branches) state
      = pomdp.lookAhead action (worthAfter pomdp branches) state := by
  rw [worth, lookAhead_eq]

/-- A tree of one decision is worth its reward. -/
theorem worth_last (state : State) :
    worth pomdp (.node (some action) []) state = pomdp.expectedReward state action := by
  rw [worth_node, lookAhead]
  simp only [worthAfter, mul_zero, Finset.sum_const_zero, add_zero]

theorem worth_next (children : Observation → DecisionNode) (state : State) :
    worth pomdp (.node (some action)
        (pomdp.observations.toList.map fun observation => (observation, children observation)))
        state
      = pomdp.lookAhead action (fun observation => worth pomdp (children observation)) state := by
  rw [worth_node]
  refine lookAhead_congr (fun observation hobservation next _ => ?_) state
  rw [DecisionNode.worthAfter_map _ (Std.ExtTreeSet.mem_toList.mpr hobservation)]

/-! ### Plans -/

/-- The trees of so many decisions. -/
inductive Plan (pomdp : Pomdp K) : (decisions : Nat) → DecisionNode → Prop
  /-- The last decision. -/
  | last {action : Action} (h : action ∈ pomdp.actions) :
      Plan pomdp 1 (.node (some action) [])
  /-- A decision that others follow. -/
  | next {action : Action} {decisions : Nat} {children : Observation → DecisionNode}
      (h : action ∈ pomdp.actions)
      (hchildren : ∀ observation ∈ pomdp.observations,
        Plan pomdp decisions (children observation)) :
      Plan pomdp (decisions + 1) (.node (some action)
        (pomdp.observations.toList.map fun observation => (observation, children observation)))

end Pomdp

end MarkovPlanning
