/-
How much the last backup leaves open.

A search stops when its last backup changed the values by little.  What it hands out then is
judged by two questions about the new values.  Do they keep up with every action, but for a
slack?  Then the optimal values are at most the slack divided by what the discount is short
of one above them (`optimum_le`).  Does the choice keep up with them, but for a slack?  Then
what the choice earns is no further below them (`le_earned`).

The slack is what a backup passes on of the change (`actionValue_le_of_backed` and
`le_actionValue_of_backed`), and a residual within the limit makes the quotient the tolerance at
most (`div_le_tolerance_of_settled`).
-/
import MarkovPlanning.Proofs.Mdp.Bellman
import MarkovPlanning.Proofs.Mdp.Dense
import Mathlib

namespace MarkovPlanning

variable {K : Type} [Field K] [LinearOrder K] [IsStrictOrderedRing K]

/-- What a settled residual passes on is the tolerance at most, divided back. -/
theorem div_le_tolerance_of_settled {tolerance discount residual : K} (htolerance : 0 ≤ tolerance)
    (hdiscount : 0 ≤ discount) (hshort : discount < 1)
    (h : settled (residualLimit tolerance discount) residual = true) :
    discount * residual / (1 - discount) ≤ tolerance := by
  rw [div_le_iff₀ (sub_pos.mpr hshort)]
  rcases eq_or_lt_of_le hdiscount with hzero | hpos
  · rw [← hzero, zero_mul, sub_zero, mul_one]
    exact htolerance
  · rw [residualLimit, if_neg (not_le.mpr hpos)] at h
    have hlimit : residual ≤ tolerance * (1 - discount) / discount := of_decide_eq_true h
    rw [mul_comm]
    exact (le_div_iff₀ hpos).mp hlimit

namespace DenseMdp.Models

variable {n m : Nat} {model : DenseMdp K n m} {mdp : Mdp K} {values values' : Vector K n}
  {slack : K} (h : model.Models mdp)
include h

omit [IsStrictOrderedRing K] in
/-- A numbered choice decides for actions of the process. -/
theorem choiceOf_mem (choice : Vector (Fin m) n) :
    ∀ state ∈ mdp.states, model.choiceOf choice state ∈ mdp.actions := by
  refine h.forall_state.mpr fun state => ?_
  rw [h.choiceOf_get]
  exact h.action_mem _

/-- It is better to go on with what is worth more. -/
theorem actionValue_mono (hclamped : mdp.Clamped)
    (hle : ∀ state, values.get state ≤ values'.get state) (state : Fin n) (action : Fin m) :
    model.actionValue values state action ≤ model.actionValue values' state action := by
  rw [h.actionValue_eq, h.actionValue_eq]
  refine Mdp.worth_mono hclamped (h.forall_state.mpr fun next => ?_)
  rw [h.valueOf_get, h.valueOf_get]
  exact hle next

variable (hproper : mdp.Proper)
include hproper

/-- **A distance is passed on discounted.** -/
theorem actionValue_le_add {distance : K} (hdistance : 0 ≤ distance)
    (hle : ∀ state, values.get state ≤ values'.get state + distance) (state : Fin n)
    (action : Fin m) :
    model.actionValue values state action
      ≤ model.actionValue values' state action + mdp.horizon.discount * distance := by
  rw [h.actionValue_eq, h.actionValue_eq]
  refine hproper.worth_le_add (h.state_mem state) (h.action_mem action) hdistance
    (h.forall_state.mpr fun next => ?_)
  rw [h.valueOf_get, h.valueOf_get]
  exact hle next

/-- No action improves much on a value that is the backup of values not much lower. -/
theorem actionValue_le_of_backed {distance : K} (hdistance : 0 ≤ distance)
    (hle : ∀ other, values.get other ≤ values'.get other + distance) {state : Fin n}
    (hbacked : values.get state = (model.backup values' state).value) (action : Fin m) :
    model.actionValue values state action
      ≤ values.get state + mdp.horizon.discount * distance := by
  refine (h.actionValue_le_add hproper hdistance hle state action).trans ?_
  rw [hbacked]
  exact add_le_add_left ((model.backup_spec values' state).2 action) _

/-- The action of a backup of values not much higher nearly keeps up its value. -/
theorem le_actionValue_of_backed {distance : K} (hdistance : 0 ≤ distance)
    (hle : ∀ other, values'.get other ≤ values.get other + distance) {state : Fin n}
    (hbacked : values.get state = (model.backup values' state).value) :
    values.get state ≤ model.actionValue values state (model.backup values' state).action
      + mdp.horizon.discount * distance := by
  rw [hbacked, (model.backup_spec values' state).1]
  exact h.actionValue_le_add hproper hdistance hle state _

variable (hdiscount : mdp.horizon.discount < 1)
include hdiscount

/-- The optimal values are not far above values that no action improves on by more than a
slack. -/
theorem optimum_le (values : Vector K n) (hslack : 0 ≤ slack) {optimum : State → K}
    (hoptimum : mdp.Bellman optimum)
    (hbest : ∀ state action, model.actionValue values state action ≤ values.get state + slack) :
    ∀ state ∈ mdp.states,
      optimum state ≤ model.valueOf values state + slack / (1 - mdp.horizon.discount) := by
  refine hoptimum.le_add_div hproper hdiscount hslack
    (h.forall_state.mpr fun state action haction => ?_)
  obtain ⟨number, rfl⟩ := h.exists_action action haction
  rw [← h.actionValue_eq, h.valueOf_get]
  exact hbest state number

/-- What a choice earns is not far below values that it keeps up but for a slack. -/
theorem le_earned (values : Vector K n) (hslack : 0 ≤ slack) {choice : Vector (Fin m) n}
    {earned : State → K}
    (hsteady : mdp.Steady (model.choiceOf choice) earned)
    (hkept : ∀ state, values.get state
      ≤ model.actionValue values state (choice.get state) + slack) :
    ∀ state ∈ mdp.states,
      model.valueOf values state ≤ earned state + slack / (1 - mdp.horizon.discount) := by
  refine hsteady.le_add_div hproper hdiscount hslack (h.forall_state.mpr fun state => ?_)
  rw [h.valueOf_get, h.choiceOf_get, ← h.actionValue_eq]
  exact hkept state

end DenseMdp.Models

end MarkovPlanning
