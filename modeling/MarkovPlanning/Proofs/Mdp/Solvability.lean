/-
When the values of a choice can be found.

With a discount that is short of one by the pivot threshold, the equations of a choice are
reduced column by column, whatever the choice (`exists_reduced`).  At each column some point with
a one there has left sides that are no greater than the pivot.  Such a point is at most the
greatest left side, divided by what the discount is short of one (`le_div_of_eval_le`), so the
pivot is no less than what the discount is short of one, although rows are exchanged and the
diagonal does not dominate any more.

Without discount, and if all rows add up to one, a choice has the same value everywhere on
both sides of its equations, so they vanish at the point of ones and are refused
(`solve_singular`).
-/
import MarkovPlanning.Proofs.Linear.Pivots
import MarkovPlanning.Proofs.Mdp.Improvement
import Mathlib

namespace MarkovPlanning.PolicyIteration

open Linear

variable {K : Type} [Field K] [LinearOrder K] {n m : Nat} {model : DenseMdp K n m} {mdp : Mdp K}

/-- The equations of a choice, one for each state. -/
def equations (model : DenseMdp K n m) (choice : Vector (Fin m) n) : System K n :=
  Vector.ofFn (valueEquation model choice)

theorem get_equations (choice : Vector (Fin m) n) (state : Fin n) :
    (equations model choice).get state = valueEquation model choice state :=
  Vector.get_ofFn _ _

/-- A run fails as its first evaluation does. -/
theorem improveExactly_error {choice : Vector (Fin m) n} {fault : NumericFault}
    (h : evaluate model choice = .error fault) (rounds made : Nat) :
    improveExactly model rounds made choice = .error fault := by
  cases rounds with
  | zero => rw [improveExactly, h]; rfl
  | succ rounds => rw [improveExactly, h]; rfl

variable [IsStrictOrderedRing K]

/-- **The pivots of a choice are no less than what the discount is short of one.** -/
theorem one_sub_discount_le_pivot (hmodel : model.Models mdp) (hproper : mdp.Proper)
    (hdiscount : mdp.horizon.discount < 1) {choice : Vector (Fin m) n} {left : System K n}
    {column : Fin n} (h : System.Eliminated (equations model choice) column left) :
    1 - mdp.horizon.discount ≤ left.size column (left.pivotRow column) := by
  obtain ⟨x, hone, hle⟩ := h.exists_point
  obtain ⟨values, rfl⟩ : ∃ values : Vector K n, values.get = x :=
    ⟨Vector.ofFn x, funext fun _ => Vector.get_ofFn _ _⟩
  have hpivot : 0 ≤ left.size column (left.pivotRow column) :=
    (abs_nonneg _).trans (hle column)
  have hpoint := le_div_of_eval_le hmodel hproper hdiscount hpivot (fun row => by
    rw [← get_equations]
    exact (le_abs_self _).trans (hle row)) column
  rwa [hone, le_div_iff₀ (sub_pos.mpr hdiscount), one_mul] at hpoint

omit [IsStrictOrderedRing K] in
/-- Without discount, the equations of a choice vanish where all values are one. -/
theorem equations_vanish (hmodel : model.Models mdp) (hdiscount : mdp.horizon.discount = 1)
    (hrows : ∀ state ∈ mdp.states, ∀ action ∈ mdp.actions,
      ∑ next ∈ mdp.states.members, mdp.transitions.chance state action next = 1)
    (choice : Vector (Fin m) n) :
    (equations model choice).Vanishes (Vector.replicate n 1).get := by
  intro row
  have hpassed : model.actionValue (Vector.replicate n 1) row (choice.get row)
      - model.actionValue (Vector.replicate n 0) row (choice.get row) = 1 := by
    rw [hmodel.actionValue_replicate, hmodel.actionValue_replicate, Mdp.worth_sub, hdiscount,
      one_mul]
    simp only [sub_zero, mul_one]
    exact hrows _ (hmodel.state_mem row) _ (hmodel.action_mem _)
  rw [get_equations, eval_valueEquation, hpassed, sub_eq_zero]
  exact Vector.getElem_replicate _

/-- **When exact policy iteration fails.**  If the discount is short of one by the pivot threshold
it never does: every choice can be evaluated, with pivots that are no less than what the discount
is short of one.  Without discount, and if all rows add up to one, it always does. -/
theorem solve_exact_solvable (tolerance : K) (maxRounds : Nat) (hproper : mdp.Proper)
    (hendless : mdp.horizon.epochs = 0) :
    (mdp.horizon.discount ≤ 1 - 1e-12 →
      (∃ solution, solve { evaluation := .exact, tolerance, maxRounds } mdp = .ok solution) ∧
      ∃ model, mdp.dense = .ok model ∧ ∀ choice,
        (∃ values, evaluate model choice = .ok values) ∧
        ∀ column : Fin mdp.states.size, ∃ left,
          (equations model choice).reduced column = .ok left ∧
          1 - mdp.horizon.discount ≤ left.size column (left.pivotRow column)) ∧
    (mdp.horizon.discount = 1 →
      (∀ state ∈ mdp.states, ∀ action ∈ mdp.actions,
        ∑ next ∈ mdp.states.members, mdp.transitions.chance state action next = 1) →
      ∃ column, solve { evaluation := .exact, tolerance, maxRounds } mdp
        = .error (.numeric (.singular column))) := by
  obtain ⟨model, hdense, hmodel⟩ :=
    Mdp.dense_models hproper.clamped hproper.states hproper.actions
  have hsolve := solve_exact_eq tolerance maxRounds hendless hdense
  constructor
  · intro hdiscount
    have hshort : mdp.horizon.discount < 1 :=
      hdiscount.trans_lt (sub_lt_self 1 improvementThreshold_pos)
    obtain ⟨found, record, hrecorded, -⟩ := improveRecorded_run hmodel hproper hdiscount
      maxRounds 0 (Vector.replicate mdp.states.size model.firstAction)
    rw [← fst_improveRecorded, hrecorded] at hsolve
    refine ⟨⟨_, hsolve⟩, model, hdense, fun choice =>
      ⟨exists_evaluate hmodel hproper hdiscount choice, fun column => ?_⟩⟩
    obtain ⟨left, hleft, heliminated⟩ := System.exists_reduced
      (not_nearlySingular hmodel hproper hdiscount choice) column column.isLt.le
    exact ⟨left, hleft, one_sub_discount_le_pivot hmodel hproper hshort heliminated⟩
  · intro hdiscount hrows
    have hone : (Vector.replicate mdp.states.size (1 : K)).get ≠ 0 := by
      intro hzero
      have hfirst := congrFun hzero ⟨0, model.states_pos⟩
      rw [show (Vector.replicate mdp.states.size (1 : K)).get ⟨0, model.states_pos⟩ = 1 from
        Vector.getElem_replicate _, Pi.zero_apply] at hfirst
      exact one_ne_zero hfirst
    obtain ⟨column, hcolumn⟩ :=
      System.solve_singular hone (equations_vanish hmodel hdiscount hrows _)
    rw [improveExactly_error hcolumn] at hsolve
    exact ⟨column, hsolve⟩

/-! ### A process without discount

A carousel turns between two places for ever.
-/

def carousel : Mdp ℚ :=
  let here : State := .named .state "here"
  let there : State := .named .state "there"
  { states := .ofList [here, there]
    actions := .ofList [.named .action "ride"]
    transitions := TransitionTable.set
      (TransitionTable.set {} (some here) none (some there) 1) (some there) none (some here) 1
    rewards := RewardTable.insert {} (.cons none (.cons none (.cons (some there) .nil))) 1
    horizon := .infinite 1 }

theorem carousel_rows : ∀ state ∈ carousel.states, ∀ action ∈ carousel.actions,
    ∑ next ∈ carousel.states.members, carousel.transitions.chance state action next = 1 := by
  decide +kernel

theorem carousel_proper : carousel.Proper where
  clamped := ⟨(ProbabilityTable.clamped_empty.insert _ _).insert _ _, Horizon.clamped_infinite _⟩
  states := by simp [carousel, Collection.ofList]
  actions := by simp [carousel, Collection.ofList]
  rows := fun state hstate action haction => (carousel_rows state hstate action haction).le

/-- The choices of the shuttle can be evaluated and those of the carousel can not. -/
theorem solve_exact_solvable_carousel :
    ((∃ solution, solve { evaluation := .exact, tolerance := (0 : ℚ), maxRounds := 4 } shuttle
        = .ok solution) ∧
      ∃ model, shuttle.dense = .ok model ∧ ∀ choice,
        (∃ values, evaluate model choice = .ok values) ∧
        ∀ column : Fin shuttle.states.size, ∃ left,
          (equations model choice).reduced column = .ok left ∧
          1 - shuttle.horizon.discount ≤ left.size column (left.pivotRow column)) ∧
    ∃ column, solve { evaluation := .exact, tolerance := (0 : ℚ), maxRounds := 0 } carousel
      = .error (.numeric (.singular column)) :=
  ⟨(solve_exact_solvable 0 4 shuttle_proper rfl).1 (by decide +kernel),
    (solve_exact_solvable 0 0 carousel_proper rfl).2 (by decide +kernel) carousel_rows⟩

end MarkovPlanning.PolicyIteration
