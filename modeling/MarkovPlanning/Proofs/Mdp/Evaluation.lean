/-
The equations of a choice find its values.

A point satisfies the equation of a state when deciding by the choice there and going on with
the point is worth the point's own value (`holds_valueEquation_iff`).  So what the solver finds
is steady (`steady_of_evaluate`).

The solver refuses a system only if some point that is not small has left sides that are.
Such a point would be nearly steady for a process without rewards, and by `le_add_div` it would
have to be smaller than it is: as long as the discount is short of one by no less than the
pivots the solver asks for, every choice has its values found (`exists_evaluate`).
-/
import MarkovPlanning.Mdp.PolicyIteration
import MarkovPlanning.Proofs.Linear.System
import MarkovPlanning.Proofs.Mdp.Bellman
import MarkovPlanning.Proofs.Mdp.Dense
import Mathlib

namespace MarkovPlanning.PolicyIteration

open Linear

variable {K : Type} [Field K] [LinearOrder K] {n m : Nat} {model : DenseMdp K n m} {mdp : Mdp K}
  {choice : Vector (Fin m) n} {values : Vector K n}

/-! ### The equation of a state -/

omit [LinearOrder K] in
/-- Taking something from one coefficient of a row takes its product with the unknown from the
left side. -/
private theorem sum_set_sub (row : Vector K n) (column : Fin n) (amount : K) (x : Fin n → K) :
    ∑ j, (row.set column.val (row.get column - amount) column.isLt).get j * x j
      = ∑ j, row.get j * x j - amount * x column := by
  have hterm : ∀ j, (row.set column.val (row.get column - amount) column.isLt).get j * x j
      = row.get j * x j - if j = column then amount * x column else 0 := by
    intro j
    by_cases hj : j = column
    · subst hj
      rw [if_pos rfl, ← sub_mul]
      exact congrArg (· * x j) (Vector.getElem_set_self _)
    · rw [if_neg hj, sub_zero]
      exact congrArg (· * x j) (Vector.getElem_set_ne _ _ (Fin.val_ne_of_ne (Ne.symm hj)))
  simp only [hterm]
  rw [Finset.sum_sub_distrib, Finset.sum_ite_eq' Finset.univ column,
    if_pos (Finset.mem_univ column)]

omit [LinearOrder K] in
/-- The left side of a row from which transitions have been taken. -/
private theorem sum_foldl_set (discount : K) (x : Fin n → K) :
    ∀ (transitions : List (Transition K n)) (row : Vector K n),
      ∑ j, (transitions.foldl (fun row transition =>
          row.set transition.next.val
            (row.get transition.next - discount * transition.probability) transition.next.isLt)
          row).get j * x j
        = ∑ j, row.get j * x j - discount *
          (transitions.map fun transition => transition.probability * x transition.next).sum := by
  intro transitions
  induction transitions with
  | nil => intro row; rw [List.foldl_nil, List.map_nil, List.sum_nil, mul_zero, sub_zero]
  | cons transition rest ih =>
      intro row
      rw [List.foldl_cons, ih, sum_set_sub, List.map_cons, List.sum_cons]
      ring

/-- The rewards and the discounted values that make up the value of an action. -/
private theorem actionValue_eq (state : Fin n) (action : Fin m) :
    model.actionValue values state action
      = (((model.transitions.get state).get action).map fun transition =>
          transition.probability * transition.reward).sum
        + model.discount * (((model.transitions.get state).get action).map fun transition =>
          transition.probability * values.get transition.next).sum := by
  unfold DenseMdp.actionValue
  rw [Scalar.foldl_add_eq, zero_add, ← List.sum_map_mul_left, ← List.sum_map_add]
  refine congrArg List.sum (List.map_congr_left fun transition _ => ?_)
  ring

/-- The side is what the action is worth when nothing that follows is. -/
private theorem side_valueEquation (state : Fin n) :
    (valueEquation model choice state).side
      = model.actionValue (Vector.replicate n 0) state (choice.get state) := by
  rw [actionValue_eq]
  refine (Scalar.foldl_add_eq _ _ _).trans ?_
  simp

/-- The left side is the value of the state less what the values that follow add. -/
theorem eval_valueEquation (state : Fin n) :
    (valueEquation model choice state).eval values.get
      = values.get state - (model.actionValue values state (choice.get state)
        - model.actionValue (Vector.replicate n 0) state (choice.get state)) := by
  have hown : ∑ j, (Vector.ofFn fun column => if column = state then (1 : K) else 0).get j
      * values.get j = values.get state := by
    simp only [Vector.get_ofFn, ite_mul, one_mul, zero_mul]
    rw [Finset.sum_ite_eq' Finset.univ state, if_pos (Finset.mem_univ state)]
  rw [actionValue_eq, actionValue_eq]
  refine (sum_foldl_set _ _ _ _).trans ?_
  rw [hown]
  simp

/-- **The equation of a state holds of values that the choice leads back to.** -/
theorem holds_valueEquation_iff (state : Fin n) :
    (valueEquation model choice state).Holds values.get ↔
      values.get state = model.actionValue values state (choice.get state) := by
  unfold Equation.Holds
  rw [eval_valueEquation, side_valueEquation, sub_eq_iff_eq_add, add_sub_cancel]

variable [IsStrictOrderedRing K]

/-- Values that were found for a choice are the choice's. -/
theorem eq_actionValue_of_evaluate (h : evaluate model choice = .ok values) (state : Fin n) :
    values.get state = model.actionValue values state (choice.get state) := by
  have hholds := (System.solve_spec _).1 values h state
  rw [Vector.get_ofFn] at hholds
  exact (holds_valueEquation_iff state).mp hholds

/-- **What is found is steady.** -/
theorem steady_of_evaluate (hmodel : model.Models mdp) (h : evaluate model choice = .ok values) :
    mdp.Steady (model.choiceOf choice) (model.valueOf values) := by
  constructor
  · refine hmodel.forall_state.mpr fun state => ?_
    rw [hmodel.choiceOf_get]
    exact hmodel.action_mem _
  · refine hmodel.forall_state.mpr fun state => ?_
    rw [hmodel.valueOf_get, hmodel.choiceOf_get, ← hmodel.actionValue_eq]
    exact eq_actionValue_of_evaluate h state

/-! ### The solver finds the values -/

/-- A point is not much greater than the left sides of a choice at it. -/
theorem le_div_of_eval_le (hmodel : model.Models mdp) (hproper : mdp.Proper)
    (hdiscount : mdp.horizon.discount < 1) {slack : K} (hslack : 0 ≤ slack)
    (h : ∀ row, (valueEquation model choice row).eval values.get ≤ slack) (column : Fin n) :
    values.get column ≤ slack / (1 - mdp.horizon.discount) := by
  have hle : ∀ state ∈ mdp.states,
      model.valueOf values state ≤ (0 : State → K) state + slack / (1 - mdp.horizon.discount) := by
    refine hproper.le_add_div hdiscount hslack (hmodel.forall_state.mpr fun row =>
      ⟨_, hmodel.action_mem (choice.get row), ?_⟩)
    have hrow := h row
    rw [eval_valueEquation, hmodel.actionValue_replicate, hmodel.actionValue_eq,
      sub_le_iff_le_add'] at hrow
    rw [Pi.zero_apply, sub_zero, hmodel.valueOf_get]
    exact hrow
  have hcolumn := hle _ (hmodel.state_mem column)
  rwa [hmodel.valueOf_get, Pi.zero_apply, zero_add] at hcolumn

/-- The equations of a choice are not nearly singular if the discount leaves enough. -/
theorem not_nearlySingular (hmodel : model.Models mdp) (hproper : mdp.Proper)
    (hdiscount : mdp.horizon.discount ≤ 1 - System.pivotThreshold) (choice : Vector (Fin m) n) :
    ¬System.NearlySingular (Vector.ofFn (valueEquation model choice)) := by
  intro h
  obtain ⟨x, ⟨column, hone⟩, hsmall⟩ := h
  obtain ⟨values, rfl⟩ : ∃ values : Vector K n, values.get = x :=
    ⟨Vector.ofFn x, funext fun _ => Vector.get_ofFn _ _⟩
  have : Nonempty (Fin n) := ⟨column⟩
  obtain ⟨worst, hworst⟩ := Finite.exists_max
    fun row => |(valueEquation model choice row).eval values.get|
  have hshort : System.pivotThreshold ≤ 1 - mdp.horizon.discount := le_sub_comm.mp hdiscount
  have hlt := hsmall worst
  rw [Vector.get_ofFn] at hlt
  have hpos : 0 < 1 - mdp.horizon.discount := (abs_nonneg _).trans_lt (hlt.trans_le hshort)
  have hle := le_div_of_eval_le hmodel hproper (sub_pos.mp hpos) (abs_nonneg _)
    (fun row => (le_abs_self _).trans (hworst row)) column
  rw [hone, le_div_iff₀ hpos, one_mul] at hle
  exact absurd (hlt.trans_le hshort) (not_lt.mpr hle)

/-- **If the discount leaves enough, every choice has its values found.** -/
theorem exists_evaluate (hmodel : model.Models mdp) (hproper : mdp.Proper)
    (hdiscount : mdp.horizon.discount ≤ 1 - System.pivotThreshold) (choice : Vector (Fin m) n) :
    ∃ values, evaluate model choice = .ok values := by
  cases hfound : evaluate model choice with
  | ok values => exact ⟨values, rfl⟩
  | error fault =>
      exact absurd ((System.solve_spec _).2 fault hfound)
        (not_nearlySingular hmodel hproper hdiscount choice)

end MarkovPlanning.PolicyIteration
