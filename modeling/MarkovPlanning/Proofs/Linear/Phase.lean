/-
What the tableaux of a phase have in common.

Every tableau that the method comes to is a basic one over the rows of the first, and
its costs are the installed ones up to those rows; that is `Valid`, and every pivot
keeps it.  How a phase ends is then an argument about one tableau.  If no cost is
negative, no solution costs less than the basic one (`neg_side_le`).  If a column with
a negative cost can grow without limit, the costs have no lower bound; that cannot
happen to the artificial costs, which are negative nowhere (`not_unbounded`).

So the first phase ends with the least sum of the artificial variables.  If it is
positive, no point is feasible (`not_feasible`), and otherwise every artificial
variable that is still basic is zero (`side_eq_zero`).
-/
import MarkovPlanning.Proofs.Linear.Run
import MarkovPlanning.Proofs.Linear.Start
import Mathlib

namespace MarkovPlanning.Linear

namespace Tableau

variable {K : Type} [Field K] [LinearOrder K]

/-! ### The two rows of costs -/

section
variable {n m k : Nat} {y : Fin (n + m + k) → K}

theorem coefficient_artificialCost (j : Fin (n + m + k)) :
    (artificialCost : Equation K (n + m + k)).coefficient j
      = if isArtificial j = true then 1 else 0 := by
  simp only [artificialCost, Equation.coefficient_ofFn]

@[simp]
theorem side_artificialCost : (artificialCost : Equation K (n + m + k)).side = 0 := rfl

theorem eval_artificialCost_proper (hy : Proper y) :
    (artificialCost : Equation K (n + m + k)).eval y = 0 := by
  refine Finset.sum_eq_zero fun j _ => ?_
  rw [coefficient_artificialCost]
  by_cases hj : isArtificial j = true
  · rw [hy.artificial j hj, mul_zero]
  · rw [if_neg hj, zero_mul]

@[simp]
theorem side_objectiveCost (objective : List K) :
    (objectiveCost objective : Equation K (n + m + k)).side = 0 := rfl

theorem eval_objectiveCost (objective : List K) (y : Fin (n + m + k) → K) :
    (objectiveCost objective).eval y = -Scalar.dot objective (originals y) := by
  have hcoef : ∀ j : Fin (n + m + k), (objectiveCost objective).coefficient j
      = if j.val < n then -(objective[j.val]?).getD 0 else 0 := by
    intro j
    simp only [objectiveCost, Equation.coefficient_ofFn]
    cases objective[j.val]? <;> simp
  have hslack : ∀ i : Fin m, ¬(slack i : Fin (n + m + k)).val < n := by
    intro i
    simp only [slack, Fin.val_castAdd, Fin.val_natAdd]
    omega
  have hartificial : ∀ a : Fin k, ¬(artificial a : Fin (n + m + k)).val < n := by
    intro a
    simp only [artificial, Fin.val_natAdd]
    omega
  unfold Equation.eval
  rw [sum_columns, originals, dot_ofFn]
  simp only [hcoef, hslack, hartificial, if_false, zero_mul, Finset.sum_const_zero, add_zero]
  rw [← Finset.sum_neg_distrib]
  refine Finset.sum_congr rfl fun j _ => ?_
  rw [if_pos (show (original j : Fin (n + m + k)).val < n from j.isLt), neg_mul]
  rfl

variable [IsStrictOrderedRing K]

theorem eval_artificialCost_nonneg (hy : ∀ j, 0 ≤ y j) :
    0 ≤ (artificialCost : Equation K (n + m + k)).eval y := by
  refine Equation.eval_nonneg hy fun j _ => ?_
  rw [coefficient_artificialCost]
  split
  · exact zero_le_one
  · exact le_refl _

theorem proper_of_eval_artificialCost (hy : ∀ j, 0 ≤ y j)
    (h : (artificialCost : Equation K (n + m + k)).eval y ≤ 0) : Proper y := by
  refine ⟨hy, fun j hj => ?_⟩
  have hterm : ∀ j, 0 ≤ (artificialCost : Equation K (n + m + k)).coefficient j * y j := by
    intro j
    refine mul_nonneg ?_ (hy j)
    rw [coefficient_artificialCost]
    split
    · exact zero_le_one
    · exact le_refl _
  have hzero := (Finset.sum_eq_zero_iff_of_nonneg fun j _ => hterm j).mp
    (le_antisymm h (eval_artificialCost_nonneg hy)) j (Finset.mem_univ j)
  rwa [coefficient_artificialCost, if_pos hj, one_mul] at hzero

end

/-! ### The invariant of both phases -/

/-- The tableaux of a program. -/
abbrev Of (program : Program K) : Type :=
  Tableau K program.objective.length program.constraints.length (artificials program)

variable {program : Program K}

/-- A basic tableau over the rows of the first one, with certain costs installed. -/
structure Valid (program : Program K)
    (installed : Equation K
      (program.objective.length + program.constraints.length + artificials program))
    (t : Of program) : Prop where
  basic : t.Basic
  priced : t.Priced installed
  space : t.rowSpace = (ofProgram program).rowSpace

namespace Valid

variable {t t' : Of program} {firstPhase : Bool}
variable {installed : Equation K
  (program.objective.length + program.constraints.length + artificials program)}

theorem solves_iff (h : Valid program installed t)
    {y : Fin (program.objective.length + program.constraints.length + artificials program) → K} :
    t.Solves y ↔ (ofProgram program).Solves y := solves_congr h.space

variable [IsStrictOrderedRing K]

theorem step {row : Fin program.constraints.length}
    {column : Fin (program.objective.length + program.constraints.length + artificials program)}
    (h : Valid program installed t) (hs : Step firstPhase t t' row column) :
    Valid program installed t' :=
  ⟨hs.basic h.basic, hs.priced h.basic h.priced, hs.rowSpace_eq.trans h.space⟩

theorem withCost (h : t.Basic) (hspace : t.rowSpace = (ofProgram program).rowSpace) :
    Valid program installed (t.withCost 0 installed) :=
  ⟨withCost_basic h installed, withCost_priced h installed, hspace⟩

omit [IsStrictOrderedRing K] in
/-- The basic solution costs what the side of the costs says. -/
theorem eval_basicPoint (h : Valid program installed t) :
    installed.eval t.basicPoint - installed.side = -t.cost.side := by
  rw [h.priced.eval_eq (basicPoint_solves h.basic.identity), basicPoint,
    eval_cost_spread h.priced, zero_sub]

/-- Where no cost is negative, no solution costs less than the basic one. -/
theorem neg_side_le (h : Valid program installed t)
    {y : Fin (program.objective.length + program.constraints.length + artificials program) → K}
    (hy : ∀ j, 0 ≤ y j) (hs : (ofProgram program).Solves y)
    (hcost : ∀ j, y j ≠ 0 → 0 ≤ t.cost.coefficient j) :
    -t.cost.side ≤ installed.eval y - installed.side := by
  rw [h.priced.eval_eq (h.solves_iff.mpr hs)]
  have := Equation.eval_nonneg hy hcost
  linarith

/-! ### The first phase -/

/-- The artificial costs have a lower bound, so no column improves them for ever. -/
theorem not_unbounded (h : Valid program artificialCost t) :
    ¬Stopped firstPhase t .unbounded := by
  intro h
  obtain ⟨column, he, hle⟩ := h
  obtain ⟨amount, ha, hlt⟩ :=
    exists_grown_lt h.basic h.priced (entering?_eq_some he).2 0
  have := eval_artificialCost_nonneg (grown_nonneg h.basic hle ha)
  rw [side_artificialCost, sub_zero] at hlt
  linarith

/-- **If the artificial variables cannot all be zero, no point is feasible.** -/
theorem not_feasible (h : Valid program artificialCost t)
    (hopt : t.entering? 0 true = none) (hpos : 0 < -t.cost.side) (x : List K) :
    ¬program.Feasible x := by
  intro hx
  obtain ⟨y, -, hy, hs⟩ := solves_complete hx
  have hcost := entering?_eq_none.mp hopt
  have := h.neg_side_le hy.nonneg hs fun j _ => hcost j (Or.inl rfl)
  rw [eval_artificialCost_proper hy] at this
  rw [side_artificialCost, sub_zero] at this
  linarith

/-- Otherwise every basic artificial variable is zero. -/
theorem side_eq_zero (h : Valid program artificialCost t) (hle : -t.cost.side ≤ 0)
    (i : Fin program.constraints.length) (hi : isArtificial (t.basis.get i) = true) :
    (t.rows.get i).side = 0 := by
  have hcost := h.eval_basicPoint
  rw [side_artificialCost, sub_zero] at hcost
  have hproper := proper_of_eval_artificialCost (basicPoint_nonneg h.basic) (hcost.trans_le hle)
  rw [← hproper.artificial _ hi]
  exact (spread_basis h.basic.identity (fun i => (t.rows.get i).side) i).symm

end Valid

end Tableau

end MarkovPlanning.Linear
