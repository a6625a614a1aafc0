/-
What elimination finds out about a system.

After some columns the rows above are a triangle without zeros on its diagonal, and every
original row is one of the present rows up to a combination of the rows above
(`Eliminated`).  Two things follow.

A point that satisfies the present rows satisfies the original ones.  When all columns are
done the rows are a triangle, which back substitution solves (`backSubstitute_solves`), so
the answer is a solution.

At each column there is a point with a one in that column on which the rows above vanish:
they are a triangle, and back substitution finds it.  What is left of an original row on that
point is one coefficient in the column, and none is greater than the pivot (`exists_point`).
So a system that is refused has a point that is not small with left sides that are
(`solve_spec`).
-/
import MarkovPlanning.Linear.System
import MarkovPlanning.Proofs.Fold
import MarkovPlanning.Proofs.Linear.Equation
import Mathlib

namespace MarkovPlanning.Linear.System

variable {K : Type} [Field K] {n : Nat}

/-- Whether a point satisfies every equation. -/
def Solves (system : System K n) (x : Fin n → K) : Prop := ∀ row, (system.get row).Holds x

/-! ### Triangles -/

/-- No row has an unknown before its own, and every row has its own. -/
structure Triangular (system : System K n) : Prop where
  below : ∀ row column, column < row → (system.get row).coefficient column = 0
  diagonal : ∀ row, (system.get row).coefficient row ≠ 0

/-- What the unknowns after a row contribute to its left side. -/
def later (system : System K n) (row : Fin n) (x : Fin n → K) : K :=
  ∑ column, if row < column then (system.get row).coefficient column * x column else 0

theorem later_congr (system : System K n) {row : Fin n} {x y : Fin n → K}
    (h : ∀ column, row < column → x column = y column) :
    system.later row x = system.later row y := by
  refine Finset.sum_congr rfl fun column _ => ?_
  by_cases hcolumn : row < column
  · rw [if_pos hcolumn, if_pos hcolumn, h column hcolumn]
  · rw [if_neg hcolumn, if_neg hcolumn]

/-- The left side of a row of a triangle: its own unknown, and those after it. -/
theorem Triangular.eval_eq {system : System K n} (h : system.Triangular) (row : Fin n)
    (x : Fin n → K) :
    (system.get row).eval x
      = (system.get row).coefficient row * x row + system.later row x := by
  unfold Equation.eval later
  rw [← Finset.add_sum_erase _ _ (Finset.mem_univ row),
    ← Finset.add_sum_erase Finset.univ (fun column => if row < column then _ else 0)
      (Finset.mem_univ row), if_neg (lt_irrefl row), zero_add]
  refine congrArg _ (Finset.sum_congr rfl fun column hcolumn => ?_)
  rcases lt_or_gt_of_ne (Finset.ne_of_mem_erase hcolumn) with hlt | hlt
  · rw [h.below row column hlt, zero_mul, if_neg hlt.not_gt]
  · rw [if_pos hlt]

/-- One step of back substitution, named so that the proofs can talk about it. -/
private def substitute (system : System K n) (solution : Vector K n) (row : Fin n) : Vector K n :=
  let equation := system.get row
  let rest := (List.finRange n).foldl
    (fun rest column =>
      if row < column then rest - equation.coefficient column * solution.get column else rest)
    equation.side
  solution.set row.val (rest / equation.coefficient row) row.isLt

/-- The later unknowns are put in, and the row is solved for its own. -/
private theorem substitute_eq (system : System K n) (solution : Vector K n) (row : Fin n) :
    system.substitute solution row = solution.set row.val
      (((system.get row).side - system.later row solution.get) /
        (system.get row).coefficient row) row.isLt := by
  have hfold : ∀ (l : List (Fin n)) (side : K),
      l.foldl (fun rest column =>
          if row < column then rest - (system.get row).coefficient column * solution.get column
          else rest) side
        = side - (l.map fun column =>
            if row < column then (system.get row).coefficient column * solution.get column
            else 0).sum := by
    intro l
    induction l with
    | nil => intro side; simp
    | cons column rest ih =>
        intro side
        rw [List.foldl_cons, ih, List.map_cons, List.sum_cons]
        by_cases hrow : row < column
        · rw [if_pos hrow, if_pos hrow, sub_sub]
        · rw [if_neg hrow, if_neg hrow, zero_add]
  simp only [substitute, hfold, later]
  rw [← List.sum_toFinset _ (List.nodup_finRange n), List.toFinset_finRange]

/-- **Back substitution solves a triangle.** -/
theorem backSubstitute_solves [LinearOrder K] {system : System K n} (h : system.Triangular) :
    system.Solves system.backSubstitute.get := by
  suffices hwalk : ∀ row : Fin n, 0 ≤ row.val →
      (system.get row).Holds system.backSubstitute.get from fun row => hwalk row (Nat.zero_le _)
  refine foldl_finRange_reverse
    (fun done (x : Vector K n) => ∀ row : Fin n, done ≤ row → (system.get row).Holds x.get)
    (fun row hrow => absurd row.isLt (not_lt.mpr hrow)) fun i x hx row hrow => ?_
  change (system.get row).Holds (system.substitute x i).get
  -- the new unknown is the row's own, and does not occur in the rows after it
  have hlater : ∀ column : Fin n, i < column →
      (system.substitute x i).get column = x.get column := by
    intro column hcolumn
    rw [substitute_eq]
    exact Vector.getElem_set_ne _ _ (Fin.val_ne_of_ne hcolumn.ne)
  have hown : (system.substitute x i).get i = ((system.get i).side - system.later i x.get) /
      (system.get i).coefficient i := by
    rw [substitute_eq]
    exact Vector.getElem_set_self _
  show (system.get row).eval _ = _
  rw [h.eval_eq]
  rcases eq_or_lt_of_le hrow with heq | hlt
  · obtain rfl : i = row := Fin.ext heq
    rw [hown, mul_div_cancel₀ _ (h.diagonal i), system.later_congr hlater, sub_add_cancel]
  · have hrow : i < row := hlt
    rw [hlater row hrow,
      system.later_congr fun column hcolumn => hlater column (hrow.trans hcolumn),
      ← h.eval_eq row x.get]
    exact hx row hlt

/-! ### One column -/

omit [Field K] in
theorem get_exchange (system : System K n) (row other i : Fin n) :
    (system.exchange row other).get i = system.get (Equiv.swap row other i) := by
  simp only [exchange, Vector.get_eq_getElem, Vector.getElem_set, Equiv.swap_apply_def,
    Fin.ext_iff]
  by_cases hother : other.val = i.val
  · by_cases hrow : i.val = row.val
    · rw [if_pos hother, if_pos hrow]
      congr 1
      omega
    · rw [if_pos hother, if_neg hrow, if_pos hother.symm]
  · by_cases hrow : i.val = row.val
    · rw [if_neg hother, if_pos hrow.symm, if_pos hrow]
    · rw [if_neg hother, if_neg fun h => hrow h.symm, if_neg hrow, if_neg fun h => hother h.symm]

variable [LinearOrder K]

theorem vector_clearBelow (system : System K n) (column i : Fin n) :
    ((system.clearBelow column).get i).vector = (system.get i).vector
      - (if i ≤ column then 0 else (system.get i).coefficient column /
          (system.get column).coefficient column) • (system.get column).vector := by
  simp only [clearBelow, Vector.get_ofFn]
  by_cases hi : i ≤ column
  · rw [if_pos hi, if_pos hi, zero_smul, sub_zero]
  · rw [if_neg hi, if_neg hi]
    split
    · rename_i hzero
      rw [Scalar.isZero_iff.mp hzero, zero_smul, sub_zero]
    · exact Equation.vector_minus _ _ _

/-- No row from the column down has a greater entry than the pivot row. -/
theorem pivotRow_spec (system : System K n) (column : Fin n) :
    column ≤ system.pivotRow column ∧ ∀ row, column ≤ row →
      system.size column row ≤ system.size column (system.pivotRow column) := by
  have hwalk : ∀ (l : List (Fin n)) (best : Fin n), column ≤ best →
      column ≤ l.foldl (fun best row =>
          if column < row ∧ system.size column best < system.size column row then row else best)
        best ∧
      ∀ row, row = best ∨ row ∈ l ∧ column < row → system.size column row
        ≤ system.size column (l.foldl (fun best row =>
          if column < row ∧ system.size column best < system.size column row then row else best)
        best) := by
    intro l
    induction l with
    | nil => intro best hbest; exact ⟨hbest, fun row hrow => by simp_all⟩
    | cons row rest ih =>
        intro best hbest
        rw [List.foldl_cons]
        by_cases hbetter : column < row ∧ system.size column best < system.size column row
        · rw [if_pos hbetter]
          obtain ⟨hle, hmax⟩ := ih row hbetter.1.le
          refine ⟨hle, fun other hother => ?_⟩
          rcases hother with rfl | ⟨hmem, hlt⟩
          · exact hbetter.2.le.trans (hmax row (Or.inl rfl))
          · rcases List.mem_cons.mp hmem with rfl | hmem
            · exact hmax other (Or.inl rfl)
            · exact hmax other (Or.inr ⟨hmem, hlt⟩)
        · rw [if_neg hbetter]
          obtain ⟨hle, hmax⟩ := ih best hbest
          refine ⟨hle, fun other hother => ?_⟩
          rcases hother with rfl | ⟨hmem, hlt⟩
          · exact hmax other (Or.inl rfl)
          · rcases List.mem_cons.mp hmem with rfl | hmem
            · exact (not_lt.mp fun h => hbetter ⟨hlt, h⟩).trans (hmax best (Or.inl rfl))
            · exact hmax other (Or.inr ⟨hmem, hlt⟩)
  obtain ⟨hle, hmax⟩ := hwalk (List.finRange n) column (le_refl _)
  refine ⟨hle, fun row hrow => hmax row ?_⟩
  rcases eq_or_lt_of_le hrow with heq | hlt
  · exact Or.inl heq.symm
  · exact Or.inr ⟨List.mem_finRange row, hlt⟩

/-! ### The columns that are done -/

/-- The equations that follow from the rows above a position. -/
def above (system : System K n) (done : Nat) : Submodule K (Option (Fin n) → K) :=
  Submodule.span K {v | ∃ row : Fin n, row.val < done ∧ (system.get row).vector = v}

omit [LinearOrder K] in
theorem mem_above {system : System K n} {done : Nat} {row : Fin n} (h : row.val < done) :
    (system.get row).vector ∈ system.above done := Submodule.subset_span ⟨row, h, rfl⟩

omit [LinearOrder K] in
theorem above_mono {system system' : System K n} {done done' : Nat} (hle : done ≤ done')
    (h : ∀ row : Fin n, row.val < done → (system'.get row).vector = (system.get row).vector) :
    system.above done ≤ system'.above done' := by
  refine Submodule.span_le.mpr ?_
  intro _ hv
  obtain ⟨row, hrow, rfl⟩ := hv
  rw [← h row hrow]
  exact mem_above (hrow.trans_le hle)

/-- What is true of a system when some columns of another have been eliminated. -/
structure Eliminated (original : System K n) (done : Nat) (system : System K n) : Prop where
  below : ∀ row column : Fin n, column.val < done → column < row →
    (system.get row).coefficient column = 0
  pivots : ∀ row : Fin n, row.val < done → (system.get row).coefficient row ≠ 0
  /-- Every original row is still there, up to the rows above. -/
  origin : ∀ row, ∃ now,
    (original.get row).vector - (system.get now).vector ∈ system.above done

namespace Eliminated

variable {original system : System K n} {done : Nat}

omit [LinearOrder K] in
/-- A point that satisfies the present rows satisfies the original ones. -/
theorem solves (h : Eliminated original done system) {x : Fin n → K} (hx : system.Solves x) :
    original.Solves x := by
  have hker : system.above done ≤ LinearMap.ker (Equation.residual x) := by
    refine Submodule.span_le.mpr ?_
    intro _ hv
    obtain ⟨row, -, rfl⟩ := hv
    exact (Equation.holds_iff _ _).mp (hx row)
  intro row
  obtain ⟨now, hnow⟩ := h.origin row
  have hsub := LinearMap.mem_ker.mp (hker hnow)
  rw [map_sub, (Equation.holds_iff _ _).mp (hx now), sub_zero] at hsub
  exact (Equation.holds_iff _ _).mpr hsub

omit [LinearOrder K] in
/-- Rows that are exchanged among those that are not done yet. -/
theorem exchange (h : Eliminated original done system) {row other : Fin n} (hrow : done ≤ row)
    (hother : done ≤ other) : Eliminated original done (system.exchange row other) := by
  have hfixed : ∀ i : Fin n, i.val < done → Equiv.swap row other i = i := fun i hi =>
    Equiv.swap_apply_of_ne_of_ne (Fin.ne_of_val_ne (by omega)) (Fin.ne_of_val_ne (by omega))
  have hlater : ∀ i : Fin n, done ≤ i → done ≤ (Equiv.swap row other i).val := by
    intro i hi
    rw [Equiv.swap_apply_def]
    split_ifs
    · exact hother
    · exact hrow
    · exact hi
  refine ⟨fun i column hcolumn hlt => ?_, fun i hi => ?_, fun i => ?_⟩
  · rw [get_exchange]
    by_cases hi : i.val < done
    · rw [hfixed i hi]
      exact h.below i column hcolumn hlt
    · exact h.below _ column hcolumn (Fin.lt_def.mpr (hcolumn.trans_le (hlater i (by omega))))
  · rw [get_exchange, hfixed i hi]
    exact h.pivots i hi
  · obtain ⟨now, hnow⟩ := h.origin i
    refine ⟨Equiv.swap row other now, ?_⟩
    rw [get_exchange, Equiv.swap_apply_self]
    refine above_mono (le_refl done) (fun r hr => ?_) hnow
    rw [get_exchange, hfixed r hr]

/-- The next column is cleared by means of the row at its position. -/
theorem clearBelow {column : Fin n} (h : Eliminated original column system)
    (hpivot : (system.get column).coefficient column ≠ 0) :
    Eliminated original (column + 1) (system.clearBelow column) := by
  have hkept : ∀ i, i ≤ column →
      ((system.clearBelow column).get i).vector = (system.get i).vector := by
    intro i hi
    rw [vector_clearBelow, if_pos hi, zero_smul, sub_zero]
  have hcleared : ∀ i, column < i → ((system.clearBelow column).get i).vector
      = (system.get i).vector - ((system.get i).coefficient column /
          (system.get column).coefficient column) • (system.get column).vector := by
    intro i hi
    rw [vector_clearBelow, if_neg (not_le.mpr hi)]
  have hspan : system.above column ≤ (system.clearBelow column).above (column + 1) :=
    above_mono (Nat.le_succ _) fun r hr => hkept r (Fin.le_def.mpr hr.le)
  have hmem : (system.get column).vector ∈ (system.clearBelow column).above (column + 1) := by
    rw [← hkept column (le_refl _)]
    exact mem_above (Nat.lt_succ_self _)
  refine ⟨fun i j hj hlt => ?_, fun i hi => ?_, fun i => ?_⟩
  · rw [← Equation.vector_some]
    rcases le_or_gt i column with hi | hi
    · rw [hkept i hi]
      exact h.below i j (Fin.lt_def.mp (hlt.trans_le hi)) hlt
    · rw [hcleared i hi, Pi.sub_apply, Pi.smul_apply, smul_eq_mul, Equation.vector_some,
        Equation.vector_some]
      rcases Nat.lt_or_eq_of_le (Nat.le_of_lt_succ hj) with hj | hj
      · rw [h.below i j hj hlt, h.below column j hj (Fin.lt_def.mpr hj), mul_zero, sub_zero]
      · obtain rfl : j = column := Fin.ext hj
        rw [div_mul_cancel₀ _ hpivot, sub_self]
  · rw [← Equation.vector_some, hkept i (Fin.le_def.mpr (Nat.le_of_lt_succ hi))]
    rcases Nat.lt_or_eq_of_le (Nat.le_of_lt_succ hi) with hi | hi
    · exact h.pivots i hi
    · obtain rfl : i = column := Fin.ext hi
      exact hpivot
  · obtain ⟨now, hnow⟩ := h.origin i
    refine ⟨now, ?_⟩
    rcases le_or_gt now column with hle | hlt
    · rw [hkept now hle]
      exact hspan hnow
    · rw [hcleared now hlt, ← sub_add]
      exact Submodule.add_mem _ (hspan hnow) (Submodule.smul_mem _ _ hmem)

/-- The triangle of the rows above, with all other unknowns given. -/
private def completed (system : System K n) (done : Nat) (given : Fin n → K) : System K n :=
  Vector.ofFn fun row =>
    if row.val < done then { coefficients := (system.get row).coefficients, side := 0 }
    else { coefficients := Vector.ofFn fun column => if column = row then 1 else 0
           side := given row }

/-- Any values of the unknowns that are not done yet can be completed so that the rows above
vanish. -/
theorem exists_vanishing (h : Eliminated original done system) (given : Fin n → K) :
    ∃ x : Fin n → K, (∀ row : Fin n, done ≤ row → x row = given row) ∧
      ∀ row : Fin n, row.val < done → (system.get row).eval x = 0 := by
  have habove : ∀ row : Fin n, row.val < done → (completed system done given).get row
      = { coefficients := (system.get row).coefficients, side := 0 } := by
    intro row hrow
    simp only [completed, Vector.get_ofFn, if_pos hrow]
  have hgiven : ∀ row : Fin n, ¬row.val < done → (completed system done given).get row
      = { coefficients := Vector.ofFn fun column => if column = row then 1 else 0
          side := given row } := by
    intro row hrow
    simp only [completed, Vector.get_ofFn, if_neg hrow]
  have htriangular : (completed system done given).Triangular := by
    constructor
    · intro row column hlt
      by_cases hrow : row.val < done
      · rw [habove row hrow]
        exact h.below row column ((Fin.lt_def.mp hlt).trans hrow) hlt
      · rw [hgiven row hrow, Equation.coefficient_ofFn, if_neg hlt.ne]
    · intro row
      by_cases hrow : row.val < done
      · rw [habove row hrow]
        exact h.pivots row hrow
      · rw [hgiven row hrow, Equation.coefficient_ofFn, if_pos rfl]
        exact one_ne_zero
  have hsolves := backSubstitute_solves htriangular
  refine ⟨(completed system done given).backSubstitute.get, fun row hrow => ?_,
    fun row hrow => ?_⟩
  · have hholds := hsolves row
    rw [hgiven row (not_lt.mpr hrow)] at hholds
    simpa only [Equation.Holds, Equation.eval, Equation.coefficient_ofFn, ite_mul, one_mul,
      zero_mul, Finset.sum_ite_eq', Finset.mem_univ, if_true] using hholds
  · have hholds := hsolves row
    rw [habove row hrow] at hholds
    exact hholds

end Eliminated

/-! ### The solver -/

variable [IsStrictOrderedRing K]

/-- **The pivot of a column bounds all left sides at some point that is not small.** -/
theorem Eliminated.exists_point {original system : System K n} {column : Fin n}
    (h : Eliminated original column system) :
    ∃ x : Fin n → K, x column = 1 ∧ ∀ row,
      |(original.get row).eval x| ≤ system.size column (system.pivotRow column) := by
  obtain ⟨x, hgiven, hvanish⟩ := h.exists_vanishing fun row => if row = column then 1 else 0
  have hone : x column = 1 := by rw [hgiven column (le_refl _), if_pos rfl]
  -- a row that is not done has nothing left but its coefficient in the column
  have hrest : ∀ row : Fin n, column ≤ row →
      (system.get row).eval x = (system.get row).coefficient column := by
    intro row hrow
    unfold Equation.eval
    rw [Finset.sum_eq_single column, hone, mul_one]
    · intro j _ hne
      rcases lt_or_gt_of_ne hne with hlt | hlt
      · rw [h.below row j hlt (hlt.trans_le hrow), zero_mul]
      · rw [hgiven j hlt.le, if_neg hne, mul_zero]
    · intro hno
      exact absurd (Finset.mem_univ column) hno
  have hker : system.above column ≤ LinearMap.ker (Equation.leftSide x) := by
    refine Submodule.span_le.mpr ?_
    intro _ hv
    obtain ⟨row, hrow, rfl⟩ := hv
    rw [SetLike.mem_coe, LinearMap.mem_ker, Equation.leftSide_vector]
    exact hvanish row hrow
  refine ⟨x, hone, fun row => ?_⟩
  obtain ⟨now, hnow⟩ := h.origin row
  have heval := LinearMap.mem_ker.mp (hker hnow)
  rw [map_sub, Equation.leftSide_vector, Equation.leftSide_vector, sub_eq_zero] at heval
  rw [heval]
  rcases lt_or_ge now column with hlt | hle
  · rw [hvanish now hlt, abs_zero, size, Scalar.abs_eq]
    exact abs_nonneg _
  · rw [hrest now hle, ← Scalar.abs_eq]
    exact (system.pivotRow_spec column).2 now hle

/-- A point that is not small and that all left sides are small at. -/
def NearlySingular (system : System K n) : Prop :=
  ∃ x : Fin n → K, (∃ column, x column = 1) ∧
    ∀ row, |(system.get row).eval x| < pivotThreshold

/-- A column that is not refused is eliminated. -/
theorem Eliminated.eliminate {original system system' : System K n} {column : Fin n}
    (h : Eliminated original column system) (hok : system.eliminate column = .ok system') :
    Eliminated original (column + 1) system' := by
  unfold System.eliminate at hok
  by_cases hsmall : system.size column (system.pivotRow column) < pivotThreshold
  · rw [if_pos hsmall] at hok
    cases hok
  · rw [if_neg hsmall] at hok
    cases hok
    refine (h.exchange (le_refl _) (system.pivotRow_spec column).1).clearBelow ?_
    rw [get_exchange, Equiv.swap_apply_left]
    intro hzero
    refine hsmall ?_
    rw [size, hzero, Scalar.abs_eq, abs_zero]
    unfold pivotThreshold
    norm_num

omit [LinearOrder K] [IsStrictOrderedRing K] in
/-- At the start nothing is done. -/
theorem eliminated_zero (system : System K n) : Eliminated system 0 system :=
  ⟨fun _ _ h => absurd h (Nat.not_lt_zero _), fun _ h => absurd h (Nat.not_lt_zero _),
    fun row => ⟨row, by rw [sub_self]; exact Submodule.zero_mem _⟩⟩

omit [LinearOrder K] [IsStrictOrderedRing K] in
/-- When all columns are done, a triangle is left. -/
theorem Eliminated.triangular {original system : System K n} (h : Eliminated original n system) :
    system.Triangular :=
  ⟨fun row column hlt => h.below row column column.isLt hlt, fun row => h.pivots row row.isLt⟩

/-- A column is refused only if the system is nearly singular. -/
theorem Eliminated.nearlySingular {original system : System K n} {column : Fin n}
    (h : Eliminated original column system) {fault : NumericFault}
    (hfault : system.eliminate column = .error fault) : original.NearlySingular := by
  obtain ⟨x, hone, hle⟩ := h.exists_point
  by_cases hsmall : system.size column (system.pivotRow column) < pivotThreshold
  · exact ⟨x, ⟨column, hone⟩, fun row => (hle row).trans_lt hsmall⟩
  · rw [System.eliminate, if_neg hsmall] at hfault
    cases hfault

/-- **An answer of the solver is a solution, and a system that it refuses is nearly singular.** -/
theorem solve_spec (system : System K n) :
    (∀ x, system.solve = .ok x → system.Solves x.get) ∧
      ∀ fault, system.solve = .error fault → system.NearlySingular := by
  obtain ⟨hok, herror⟩ := foldlM_finRange (Eliminated system) system.eliminated_zero
    (fun _ _ _ h hok => h.eliminate hok) fun _ _ _ h hfault => h.nearlySingular hfault
  unfold solve
  cases hwalk : (List.finRange n).foldlM System.eliminate system with
  | error e => exact ⟨fun x hx => (nomatch hx), fun fault _ => herror e hwalk⟩
  | ok triangle =>
      refine ⟨fun x hx => ?_, fun fault hfault => (nomatch hfault)⟩
      cases hx
      have hdone := hok triangle hwalk
      exact hdone.solves (backSubstitute_solves hdone.triangular)

end MarkovPlanning.Linear.System
