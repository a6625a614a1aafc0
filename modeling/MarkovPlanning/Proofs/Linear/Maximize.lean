/-
What the simplex method answers, without rounding.

Between the phases the artificial variables are zero, but some may still be basic.
`driveOut` leaves the row of such a variable with nothing but artificial coefficients,
so that no later pivot touches it and its variable stays at zero.  That is `Retired`,
the part of the invariant that makes the solutions of the second phase points of the
program: without it an artificial variable could become positive again, unnoticed by
the costs.

The second phase ends with the least value of the negated objective, or with a column
along which there is none.  `maximize_correct` puts the endings of both phases
together.
-/
import MarkovPlanning.Proofs.Linear.Phase
import Mathlib

namespace MarkovPlanning.Linear

variable {K : Type} [Field K] [LinearOrder K]

/-- What an outcome says about a program that is to be maximised. -/
def Outcome.Correct (program : Program K) : Outcome K → Prop
  | .optimal point value =>
      program.Feasible point ∧ Scalar.dot program.objective point = value ∧
        ∀ x, program.Feasible x → Scalar.dot program.objective x ≤ value
  | .infeasible => ∀ x, ¬program.Feasible x
  | .unbounded => ∀ bound, ∃ x, program.Feasible x ∧ bound < Scalar.dot program.objective x
  | .pivotLimit => True

namespace Tableau

variable {n m k : Nat} {t : Tableau K n m k}

/-! ### Artificial variables that stay at zero -/

/-- Artificial variables that are basic are zero, and their rows hold nothing else. -/
structure Retired (t : Tableau K n m k) : Prop where
  side : ∀ i, isArtificial (t.basis.get i) = true → (t.rows.get i).side = 0
  row : ∀ i, isArtificial (t.basis.get i) = true → ∀ j, isArtificial j = false →
    (t.rows.get i).coefficient j = 0

/-- After a pivot on a column that is not artificial, the rows of artificial variables are old
ones. -/
theorem isArtificial_basis_pivot {eps : K} {row i : Fin m} {column : Fin (n + m + k)}
    (hcolumn : isArtificial column = false)
    (hi : isArtificial ((t.pivot eps row column).basis.get i) = true) :
    i ≠ row ∧ isArtificial (t.basis.get i) = true := by
  rw [basis_pivot] at hi
  by_cases hrow : i = row
  · rw [if_pos hrow, hcolumn] at hi
    exact Bool.noConfusion hi
  · rw [if_neg hrow] at hi
    exact ⟨hrow, hi⟩

variable [IsStrictOrderedRing K]

namespace Retired

theorem basicPoint_proper (h : t.Retired) (hb : t.Basic) : Proper t.basicPoint :=
  ⟨basicPoint_nonneg hb, fun _ hj => spread_eq_zero fun i hi => h.side i (hi ▸ hj)⟩

theorem grown_proper (h : t.Retired) (hb : t.Basic) {column : Fin (n + m + k)}
    (hcolumn : isArtificial column = false)
    (hle : ∀ i, (t.rows.get i).coefficient column ≤ 0) {amount : K} (ha : 0 ≤ amount) :
    Proper (t.grown column amount) := by
  refine ⟨grown_nonneg hb hle ha, fun j hj => ?_⟩
  have hne : j ≠ column := fun he => by rw [he, hcolumn] at hj; exact Bool.noConfusion hj
  rw [grown_of_ne hne]
  refine spread_eq_zero fun i hi => ?_
  rw [h.side i (hi ▸ hj), h.row i (hi ▸ hj) column hcolumn, zero_mul, sub_zero]

/-- Pivots on columns that are not artificial leave the rows of artificial variables alone. -/
theorem step {t' : Tableau K n m k} {row : Fin m} {column : Fin (n + m + k)}
    (h : t.Retired) (hs : Step false t t' row column) : t'.Retired := by
  have hcolumn : isArtificial column = false := by
    simpa using (entering?_eq_some hs.enters).1
  have hne := hs.ne_zero
  rw [hs.result]
  constructor
  · intro i hi
    obtain ⟨hrow, hi⟩ := isArtificial_basis_pivot hcolumn hi
    rw [side_pivot_other hne hrow, h.side i hi, h.row i hi column hcolumn, zero_mul, sub_zero]
  · intro i hi j hj
    obtain ⟨hrow, hi⟩ := isArtificial_basis_pivot hcolumn hi
    rw [coefficient_pivot_other hne hrow, h.row i hi j hj, h.row i hi column hcolumn, zero_mul,
      sub_zero]

end Retired

/-! ### Driving artificial variables out -/

/-- The column that takes the place of an artificial variable, if there is one. -/
def replacement? (t : Tableau K n m k) (eps : K) (row : Fin m) : Option (Fin (n + m + k)) :=
  if isArtificial (t.basis.get row) then
    (List.finRange (n + m + k)).find? fun column =>
      !isArtificial column && decide (eps < Scalar.abs ((t.rows.get row).coefficient column))
  else none

/-- One step of `driveOut`, named so that the proofs can talk about it. -/
def driveRow (t : Tableau K n m k) (eps : K) (row : Fin m) : Tableau K n m k :=
  match t.replacement? eps row with
  | some column => t.pivot eps row column
  | none => t

omit [IsStrictOrderedRing K] in
theorem driveOut_eq (t : Tableau K n m k) (eps : K) :
    t.driveOut eps = (List.finRange m).foldl (fun t row => t.driveRow eps row) t := by
  unfold driveOut
  congr 1
  funext t row
  unfold driveRow
  by_cases hrow : isArtificial (t.basis.get row) = true
  · rw [if_pos hrow]
    cases hfound : t.replacement? eps row with
    | none =>
        rw [replacement?, if_pos hrow] at hfound
        simp only [hfound]
    | some column =>
        rw [replacement?, if_pos hrow] at hfound
        simp only [hfound]
  · rw [if_neg hrow, replacement?, if_neg hrow]

theorem replacement?_eq_some {eps : K} {row : Fin m} {column : Fin (n + m + k)}
    (h : t.replacement? eps row = some column) :
    isArtificial (t.basis.get row) = true ∧ isArtificial column = false ∧
      eps < |(t.rows.get row).coefficient column| := by
  unfold replacement? at h
  by_cases hrow : isArtificial (t.basis.get row) = true
  · rw [if_pos hrow] at h
    have hfound := List.find?_some h
    simp only [Bool.and_eq_true, Bool.not_eq_true', decide_eq_true_eq, Scalar.abs_eq] at hfound
    exact ⟨hrow, hfound.1, hfound.2⟩
  · rw [if_neg hrow] at h
    exact absurd h (Option.some_ne_none column).symm

theorem replacement?_eq_none {eps : K} {row : Fin m} (h : t.replacement? eps row = none)
    (hrow : isArtificial (t.basis.get row) = true) {j : Fin (n + m + k)}
    (hj : isArtificial j = false) : |(t.rows.get row).coefficient j| ≤ eps := by
  unfold replacement? at h
  rw [if_pos hrow] at h
  have hnone := List.find?_eq_none.mp h j (List.mem_finRange j)
  simpa only [hj, Bool.not_false, Bool.true_and, decide_eq_true_eq, Scalar.abs_eq, not_lt]
    using hnone

/-- What is kept while artificial variables are driven out of some rows of a tableau. -/
structure Driven (first : Tableau K n m k) (done : Fin m → Prop) (t : Tableau K n m k) : Prop where
  basic : t.Basic
  space : t.rowSpace = first.rowSpace
  side : ∀ i, isArtificial (t.basis.get i) = true → (t.rows.get i).side = 0
  row : ∀ i, done i → isArtificial (t.basis.get i) = true → ∀ j, isArtificial j = false →
    (t.rows.get i).coefficient j = 0
  priced : ∀ installed, first.Priced installed → t.Priced installed

private theorem Driven.pivot {first : Tableau K n m k} {done : Fin m → Prop} {row : Fin m}
    {column : Fin (n + m + k)} (h : Driven first done t)
    (hrow : isArtificial (t.basis.get row) = true) (hcolumn : isArtificial column = false)
    (hne : (t.rows.get row).coefficient column ≠ 0) :
    Driven first (fun i => i = row ∨ done i) (t.pivot 0 row column) := by
  -- the pivot row has the side zero, so no side changes
  have hside := h.side row hrow
  refine ⟨h.basic.pivot hne ?_ ?_, (pivot_rowSpace hne).trans h.space, ?_, ?_,
    fun installed hp => (h.priced installed hp).pivot h.basic hne⟩
  · rw [hside, zero_div]
  · intro i _
    rw [hside, zero_div, mul_zero]
    exact h.basic.sides i
  · intro i hi
    obtain ⟨hi', hi⟩ := isArtificial_basis_pivot hcolumn hi
    rw [side_pivot_other hne hi', hside, zero_div, mul_zero, sub_zero, h.side i hi]
  · intro i hdone hi j hj
    obtain ⟨hi', hi⟩ := isArtificial_basis_pivot hcolumn hi
    have hdone := hdone.resolve_left hi'
    rw [coefficient_pivot_other hne hi', h.row i hdone hi j hj, h.row i hdone hi column hcolumn,
      zero_mul, sub_zero]

private theorem Driven.driveRow {first : Tableau K n m k} {done : Fin m → Prop}
    (h : Driven first done t) (row : Fin m) :
    Driven first (fun i => i = row ∨ done i) (t.driveRow 0 row) := by
  unfold Tableau.driveRow
  cases hreplace : t.replacement? 0 row with
  | some column =>
      obtain ⟨hrow, hcolumn, hlarge⟩ := replacement?_eq_some hreplace
      exact h.pivot hrow hcolumn (abs_pos.mp hlarge)
  | none =>
      refine ⟨h.basic, h.space, h.side, ?_, h.priced⟩
      intro i hdone hi j hj
      rcases hdone with rfl | hdone
      · exact abs_nonpos_iff.mp (replacement?_eq_none hreplace hi hj)
      · exact h.row i hdone hi j hj

private theorem Driven.foldl {first : Tableau K n m k} :
    ∀ (l : List (Fin m)) {done : Fin m → Prop} {t : Tableau K n m k}, Driven first done t →
      Driven first (fun i => i ∈ l ∨ done i) (l.foldl (fun t row => t.driveRow 0 row) t) := by
  intro l
  induction l with
  | nil => intro done t h; simpa using h
  | cons row rest ih =>
      intro done t h
      have := ih (h.driveRow row)
      simpa only [List.foldl_cons, List.mem_cons, or_assoc, or_left_comm] using this

/-- **Going through some rows drives the artificial variables out of them**, or retires them. -/
theorem foldl_driveRow (hb : t.Basic)
    (hside : ∀ i, isArtificial (t.basis.get i) = true → (t.rows.get i).side = 0)
    (rows : List (Fin m)) :
    Driven t (· ∈ rows) (rows.foldl (fun t row => t.driveRow 0 row) t) := by
  have hnone : Driven t (fun _ => False) t :=
    ⟨hb, rfl, hside, fun _ h => h.elim, fun _ hp => hp⟩
  simpa only [or_false] using hnone.foldl rows

/-- **Driving the artificial variables out retires those that stay.** -/
theorem driveOut_spec (hb : t.Basic)
    (hside : ∀ i, isArtificial (t.basis.get i) = true → (t.rows.get i).side = 0) :
    (t.driveOut 0).Basic ∧ (t.driveOut 0).rowSpace = t.rowSpace ∧ (t.driveOut 0).Retired := by
  have hdriven := foldl_driveRow hb hside (List.finRange m)
  rw [driveOut_eq]
  exact ⟨hdriven.basic, hdriven.space, hdriven.side,
    fun i => hdriven.row i (List.mem_finRange i)⟩

/-! ### The second phase -/

variable {program : Program K}

theorem run_second {t : Of program} (hb : t.Basic)
    (hspace : t.rowSpace = (ofProgram program).rowSpace) (hr : t.Retired) (pivots : Nat) :
    let result := run 0 false pivots (t.withCost 0 (objectiveCost program.objective))
    (Valid program (objectiveCost program.objective) result.2.1 ∧ result.2.1.Retired) ∧
      Stopped false result.2.1 result.1 := by
  refine run_spec (P := fun t => Valid program (objectiveCost program.objective) t ∧ t.Retired)
    (fun t t' row column h hs => ⟨h.1.step hs, h.2.step hs⟩) pivots _ ?_
  exact ⟨Valid.withCost hb hspace, ⟨hr.side, hr.row⟩⟩

omit [IsStrictOrderedRing K] in
theorem originals_basicPoint {t : Of program} (hb : t.Identity) :
    originals t.basicPoint = t.point.toList := by
  refine List.ext_getElem (by simp [originals]) fun j hj _ => ?_
  have hj' : j < program.objective.length := by simpa [originals] using hj
  simp only [originals, List.getElem_ofFn, Vector.getElem_toList, point_getElem hb hj']
  rfl

/-- **The second phase answers right.** -/
theorem secondPhase_correct {t : Of program} (hb : t.Basic)
    (hspace : t.rowSpace = (ofProgram program).rowSpace) (hr : t.Retired) (pivots : Nat) :
    (t.secondPhase 0 program.objective pivots).1.Correct program := by
  obtain ⟨⟨hvalid, hretired⟩, hstop⟩ := run_second hb hspace hr pivots
  unfold secondPhase
  split
  · rename_i last left hrun
    rw [hrun] at hvalid hretired hstop
    have hproper := hretired.basicPoint_proper hvalid.basic
    have hsolves := hvalid.solves_iff.mp (basicPoint_solves hvalid.basic.identity)
    have hvalue := hvalid.eval_basicPoint
    rw [eval_objectiveCost, side_objectiveCost, sub_zero,
      originals_basicPoint hvalid.basic.identity] at hvalue
    refine ⟨?_, rfl, fun x hx => ?_⟩
    · rw [← originals_basicPoint hvalid.basic.identity]
      exact feasible_of_solves hproper hsolves
    · obtain ⟨y, rfl, hy, hs⟩ := solves_complete hx
      have hcost := entering?_eq_none.mp hstop
      have := hvalid.neg_side_le hy.nonneg hs fun j hj =>
        hcost j (Or.inr (by
          by_contra hart
          exact hj (hy.artificial j (by simpa using hart))))
      rw [eval_objectiveCost, side_objectiveCost, sub_zero] at this
      linarith
  · rename_i last left hrun
    rw [hrun] at hvalid hretired hstop
    obtain ⟨column, he, hle⟩ := hstop
    have hcolumn : isArtificial column = false := by simpa using (entering?_eq_some he).1
    intro bound
    obtain ⟨amount, ha, hlt⟩ :=
      exists_grown_lt hvalid.basic hvalid.priced (entering?_eq_some he).2 (-bound)
    refine ⟨_, feasible_of_solves (hretired.grown_proper hvalid.basic hcolumn hle ha)
      (hvalid.solves_iff.mp (grown_solves hvalid.basic.identity amount)), ?_⟩
    rw [eval_objectiveCost, side_objectiveCost, sub_zero] at hlt
    exact neg_lt_neg_iff.mp hlt
  · exact trivial

end Tableau

open Tableau

variable [IsStrictOrderedRing K] {program : Program K}

/-- **Without rounding, the simplex method answers right.** -/
theorem maximize_correct {settings : Settings K} (htol : settings.tolerance = 0)
    (program : Program K) : (maximize settings program).outcome.Correct program := by
  have hstart := ofProgram_basic program
  simp only [maximize, htol]
  by_cases hzero : artificials program = 0
  · -- without artificial variables the first tableau is ready for the second phase
    have hnone : ∀ j : Fin (program.objective.length + program.constraints.length +
        artificials program), ¬isArtificial j = true := by
      intro j hj
      have := isArtificial_iff.mp hj
      omega
    rw [if_pos hzero]
    exact secondPhase_correct hstart rfl
      ⟨fun _ hi => absurd hi (hnone _), fun _ hi => absurd hi (hnone _)⟩ _
  · rw [if_neg hzero]
    have hstep : ∀ t t' row column, Valid program artificialCost t →
        Step true t t' row column → Valid program artificialCost t' :=
      fun t t' row column h hs => h.step hs
    obtain ⟨hvalid, hstop⟩ := run_spec hstep settings.maxPivots _ (Valid.withCost hstart rfl)
    cases hresult :
        run 0 true settings.maxPivots ((ofProgram program).withCost 0 artificialCost) with
    | mk verdict rest =>
        obtain ⟨last, left⟩ := rest
        rw [hresult] at hvalid hstop
        cases verdict with
        | exhausted => exact trivial
        | unbounded => exact absurd hstop hvalid.not_unbounded
        | optimal =>
            dsimp only
            by_cases hpos : 0 < -last.cost.side
            · rw [if_pos hpos]
              exact hvalid.not_feasible hstop hpos
            · rw [if_neg hpos]
              obtain ⟨hb, hspace, hr⟩ := driveOut_spec hvalid.basic
                (hvalid.side_eq_zero (not_lt.mp hpos))
              exact secondPhase_correct hb (hspace.trans hvalid.space) hr left

end MarkovPlanning.Linear
