/-
What one decision is worth.

An action leads to a state, which earns a reward and is worth something itself, and what
it is worth counts less by the discount.  `Mdp.worth` is the expectation of that.

In a proper process the chances of a decision add up to one at most.  So values that are
higher by at most some distance make a decision worth more by at most that distance times
the discount (`worth_le_add`).  All that is said here about how far two values of a process
can be apart comes from there: if wherever one exceeds the other some decision passes the
excess on, up to a slack, then the greatest excess bounds itself, and is at most the slack
divided by what the discount is short of one (`Proper.le_add_div`).
-/
import MarkovPlanning.Proofs.Clamped
import MarkovPlanning.Proofs.Entity.Sum
import Mathlib

namespace MarkovPlanning

variable {K : Type} [Field K] [LinearOrder K]

namespace Mdp

/-- The expected reward of an action and the discounted value of what follows. -/
def worth (mdp : Mdp K) (values : State → K) (state : State) (action : Action) : K :=
  ∑ next ∈ mdp.states.members, mdp.transitions.chance state action next *
    (mdp.rewards.reward state action next + mdp.horizon.discount * values next)

/-- A process with a state and an action, in which nothing is more than certain. -/
structure Proper (mdp : Mdp K) : Prop where
  clamped : mdp.Clamped
  states : mdp.states ≠ ∅
  actions : mdp.actions ≠ ∅
  rows : ∀ state ∈ mdp.states, ∀ action ∈ mdp.actions,
    ∑ next ∈ mdp.states.members, mdp.transitions.chance state action next ≤ 1

variable {mdp : Mdp K} {values values' : State → K} {state : State} {action : Action}

/-- How the worth of a decision depends on what follows. -/
theorem worth_sub :
    mdp.worth values state action - mdp.worth values' state action
      = mdp.horizon.discount * ∑ next ∈ mdp.states.members,
          mdp.transitions.chance state action next * (values next - values' next) := by
  unfold worth
  rw [← Finset.sum_sub_distrib, Finset.mul_sum]
  exact Finset.sum_congr rfl fun next _ => by ring

variable [IsStrictOrderedRing K]

theorem Clamped.chance_nonneg (h : mdp.Clamped) (state : State) (action : Action) (next : State) :
    0 ≤ mdp.transitions.chance state action next :=
  (h.transitions.get_mem _).1

/-- It is better to go on with what is worth more. -/
theorem worth_mono (h : mdp.Clamped) (hle : ∀ next ∈ mdp.states, values next ≤ values' next) :
    mdp.worth values state action ≤ mdp.worth values' state action :=
  Finset.sum_le_sum fun next hnext =>
    mul_le_mul_of_nonneg_left (add_le_add_right (mul_le_mul_of_nonneg_left
      (hle next (Collection.mem_members.mp hnext)) h.horizon.1) _) (h.chance_nonneg _ _ _)

namespace Proper

/-- **A decision passes a distance on discounted.** -/
theorem worth_le_add (h : mdp.Proper) (hstate : state ∈ mdp.states) (haction : action ∈ mdp.actions)
    {distance : K} (hdistance : 0 ≤ distance)
    (hle : ∀ next ∈ mdp.states, values next ≤ values' next + distance) :
    mdp.worth values state action
      ≤ mdp.worth values' state action + mdp.horizon.discount * distance := by
  have hsum : ∑ next ∈ mdp.states.members,
      mdp.transitions.chance state action next * (values next - values' next) ≤ distance :=
    calc ∑ next ∈ mdp.states.members,
          mdp.transitions.chance state action next * (values next - values' next)
        ≤ ∑ next ∈ mdp.states.members, mdp.transitions.chance state action next * distance :=
          Finset.sum_le_sum fun next hnext => mul_le_mul_of_nonneg_left
            (sub_le_iff_le_add'.mpr (hle next (Collection.mem_members.mp hnext)))
            (h.clamped.chance_nonneg _ _ _)
      _ = (∑ next ∈ mdp.states.members, mdp.transitions.chance state action next) * distance :=
          (Finset.sum_mul _ _ _).symm
      _ ≤ 1 * distance :=
          mul_le_mul_of_nonneg_right (h.rows state hstate action haction) hdistance
      _ = distance := one_mul distance
  rw [← sub_le_iff_le_add', worth_sub]
  exact mul_le_mul_of_nonneg_left hsum h.clamped.horizon.1

/-- The same in both directions. -/
theorem abs_worth_sub_le (h : mdp.Proper) (hstate : state ∈ mdp.states)
    (haction : action ∈ mdp.actions) {distance : K} (hdistance : 0 ≤ distance)
    (hle : ∀ next ∈ mdp.states, |values next - values' next| ≤ distance) :
    |mdp.worth values state action - mdp.worth values' state action|
      ≤ mdp.horizon.discount * distance := by
  rw [abs_sub_le_iff, sub_le_iff_le_add', sub_le_iff_le_add']
  constructor
  · exact h.worth_le_add hstate haction hdistance fun next hnext =>
      sub_le_iff_le_add'.mp (abs_sub_le_iff.mp (hle next hnext)).1
  · exact h.worth_le_add hstate haction hdistance fun next hnext =>
      sub_le_iff_le_add'.mp (abs_sub_le_iff.mp (hle next hnext)).2

/-- **The greatest excess bounds itself.**  Where it is, some decision passes on no more than the
excess discounted, and the slack. -/
theorem le_add_div (h : mdp.Proper) (hdiscount : mdp.horizon.discount < 1) {slack : K}
    (hslack : 0 ≤ slack)
    (hstep : ∀ state ∈ mdp.states, ∃ action ∈ mdp.actions, values state - values' state
      ≤ mdp.worth values state action - mdp.worth values' state action + slack) :
    ∀ state ∈ mdp.states, values state ≤ values' state + slack / (1 - mdp.horizon.discount) := by
  have hshort : 0 < 1 - mdp.horizon.discount := sub_pos.mpr hdiscount
  obtain ⟨some, hsome⟩ := Collection.exists_mem h.states
  obtain ⟨top, htop, hmax⟩ := Finset.exists_max_image mdp.states.members
    (fun state => values state - values' state) ⟨some, Collection.mem_members.mpr hsome⟩
  have hexcess : values top - values' top ≤ slack / (1 - mdp.horizon.discount) := by
    rcases le_or_gt (values top - values' top) 0 with hneg | hpos
    · exact hneg.trans (div_nonneg hslack hshort.le)
    · have htop : top ∈ mdp.states := Collection.mem_members.mp htop
      obtain ⟨action, haction, hpass⟩ := hstep top htop
      have hworth := h.worth_le_add htop haction hpos.le fun next hnext =>
        sub_le_iff_le_add'.mp (hmax next (Collection.mem_members.mpr hnext))
      rw [le_div_iff₀ hshort]
      linarith
  intro state hstate
  exact sub_le_iff_le_add'.mp ((hmax state (Collection.mem_members.mpr hstate)).trans hexcess)

/-- Without slack there is no excess. -/
theorem le_of_step (h : mdp.Proper) (hdiscount : mdp.horizon.discount < 1)
    (hstep : ∀ state ∈ mdp.states, ∃ action ∈ mdp.actions, values state - values' state
      ≤ mdp.worth values state action - mdp.worth values' state action) :
    ∀ state ∈ mdp.states, values state ≤ values' state := by
  intro state hstate
  have hle := h.le_add_div hdiscount (le_refl 0) (fun state hstate => by
    simpa only [add_zero] using hstep state hstate) state hstate
  rwa [zero_div, add_zero] at hle

end Proper

end Mdp

/-! ### A small process

A shuttle earns one for a day at home and two for a day away.  It may drive over instead, which
earns nothing, and on one drive in four it breaks down for good.
-/

def shuttle : Mdp ℚ :=
  let home : State := .named .state "home"
  let away : State := .named .state "away"
  let stay : Action := .named .action "stay"
  let drive : Action := .named .action "drive"
  { states := .ofList [home, away]
    actions := .ofList [stay, drive]
    transitions := TransitionTable.set (TransitionTable.set (TransitionTable.set
      (TransitionTable.set {} (some home) (some stay) (some home) 1)
      (some away) (some stay) (some away) 1)
      (some home) (some drive) (some away) (3/4)) (some away) (some drive) (some home) (3/4)
    rewards := RewardTable.insert (RewardTable.insert {}
      (.cons (some home) (.cons (some stay) (.cons none .nil))) 1)
      (.cons (some away) (.cons (some stay) (.cons none .nil))) 2
    horizon := .infinite (9/10) }

theorem shuttle_proper : shuttle.Proper where
  clamped := ⟨(((ProbabilityTable.clamped_empty.insert _ _).insert _ _).insert _ _).insert _ _,
    Horizon.clamped_infinite _⟩
  states := by simp [shuttle, Collection.ofList]
  actions := by simp [shuttle, Collection.ofList]
  rows := by decide +kernel

end MarkovPlanning
