/-
What following a strategy earns.

A strategy decides by the whole history.  What its first decisions earn is computed one
decision at a time: the first one is worth its reward and, after it, what the rest of the
strategy earns in the state it led to.

Over an endless span the rewards of more and more decisions are looked at.  The values of a
process are optimal when some strategy comes as close to them as one likes and no strategy
stays above them (`Mdp.Optimal`).  That says nothing about strategies whose earnings have no
limit in the field, but such a strategy stays below every bound above the values, too.
-/
import MarkovPlanning.Proofs.Mdp.Worth
import Mathlib

namespace MarkovPlanning

open Filter Topology

/-- A decision for every history: the states left behind, the earliest first, and the present
one. -/
abbrev Strategy := List State → State → Action

namespace Strategy

/-- How a strategy goes on when the first state has been left. -/
def after (strategy : Strategy) (first : State) : Strategy := fun past => strategy (first :: past)

/-- The strategy that decides by the present state. -/
def stationary (choice : State → Action) : Strategy := fun _ => choice

end Strategy

variable {K : Type} [Field K] [LinearOrder K]

namespace Mdp

/-- The expected discounted reward of the first decisions of a strategy. -/
def earned (mdp : Mdp K) : (decisions : Nat) → Strategy → State → K
  | 0, _, _ => 0
  | decisions + 1, strategy, state =>
    mdp.worth (mdp.earned decisions (strategy.after state)) state (strategy [] state)

/-- Whether a strategy decides for actions of the process. -/
def Allows (mdp : Mdp K) (strategy : Strategy) : Prop :=
  ∀ past, ∀ state ∈ mdp.states, strategy past state ∈ mdp.actions

/-- The values that some strategy earns in the long run, and none more. -/
structure Optimal [TopologicalSpace K] (mdp : Mdp K) (values : State → K) : Prop where
  attained : ∃ strategy, mdp.Allows strategy ∧ ∀ state ∈ mdp.states,
    Tendsto (fun decisions => mdp.earned decisions strategy state) atTop (𝓝 (values state))
  greatest : ∀ strategy, mdp.Allows strategy → ∀ state ∈ mdp.states, ∀ bound, values state < bound →
    ∀ᶠ decisions in atTop, mdp.earned decisions strategy state < bound

variable {mdp : Mdp K}

/-- There is only one optimal value of a state. -/
theorem Optimal.unique [TopologicalSpace K] [OrderTopology K] [IsStrictOrderedRing K]
    {values values' : State → K} (h : mdp.Optimal values) (h' : mdp.Optimal values') :
    ∀ state ∈ mdp.states, values state = values' state := by
  have hle : ∀ {values values' : State → K}, mdp.Optimal values → mdp.Optimal values' →
      ∀ state ∈ mdp.states, values state ≤ values' state := by
    intro values values' h h' state hstate
    obtain ⟨strategy, hallowed, htendsto⟩ := h.attained
    refine le_of_forall_gt_imp_ge_of_dense fun bound hbound => ?_
    exact le_of_tendsto (htendsto state hstate)
      ((h'.greatest strategy hallowed state hstate bound hbound).mono fun _ => le_of_lt)
  exact fun state hstate => le_antisymm (hle h h' state hstate) (hle h' h state hstate)

/-! ### Bounds on what is earned -/

variable [IsStrictOrderedRing K] {values : State → K} {distance : K}

omit [Field K] [LinearOrder K] [IsStrictOrderedRing K] in
theorem Allows.after {strategy : Strategy} (h : mdp.Allows strategy) (first : State) :
    mdp.Allows (strategy.after first) := fun past => h (first :: past)

/-- No strategy earns more than values that no decision improves on, but for what is left of the
distance at the start. -/
theorem Proper.earned_le (h : mdp.Proper) (hdistance : 0 ≤ distance)
    (hstart : ∀ state ∈ mdp.states, 0 ≤ values state + distance)
    (hbest : ∀ state ∈ mdp.states, ∀ action ∈ mdp.actions,
      mdp.worth values state action ≤ values state) :
    ∀ decisions strategy, mdp.Allows strategy → ∀ state ∈ mdp.states,
      mdp.earned decisions strategy state
        ≤ values state + mdp.horizon.discount ^ decisions * distance := by
  intro decisions
  induction decisions with
  | zero =>
      intro strategy _ state hstate
      rw [pow_zero, one_mul]
      exact hstart state hstate
  | succ decisions ih =>
      intro strategy hallowed state hstate
      have haction := hallowed [] state hstate
      have hrest : 0 ≤ mdp.horizon.discount ^ decisions * distance :=
        mul_nonneg (pow_nonneg h.clamped.horizon.1 _) hdistance
      calc mdp.earned (decisions + 1) strategy state
          ≤ mdp.worth values state (strategy [] state)
            + mdp.horizon.discount * (mdp.horizon.discount ^ decisions * distance) :=
            h.worth_le_add hstate haction hrest (ih _ (hallowed.after state))
        _ ≤ values state + mdp.horizon.discount ^ (decisions + 1) * distance := by
            rw [pow_succ', mul_assoc]
            exact add_le_add_left (hbest state hstate _ haction) _

end Mdp

end MarkovPlanning
