/-
Which pivot is made, and what a run of pivots keeps.

`entering?` and `leaving?` are searches, and this file says what their answers mean.
No entering column means that no cost can be improved.  The leaving row is the one
whose ratio of side to coefficient is least, the lower basic column deciding between
equal ratios; no leaving row means that the column is positive nowhere.

`run` makes pivots chosen in that way until one of the searches comes back empty or
the supply is used up.  `run_spec` turns it into an induction: what every such pivot
keeps holds of the last tableau, and the verdict says which search came back empty
there.
-/
import MarkovPlanning.Linear.Simplex
import MarkovPlanning.Proofs.Linear.Pivot
import Mathlib

namespace MarkovPlanning.Linear.Tableau

variable {K : Type} [Field K] [LinearOrder K] {n m k : Nat}
variable {t : Tableau K n m k} {column : Fin (n + m + k)} {firstPhase : Bool}

/-! ### The entering column -/

theorem entering?_eq_none :
    t.entering? 0 firstPhase = none ↔
      ∀ j, (firstPhase = true ∨ isArtificial j = false) → 0 ≤ t.cost.coefficient j := by
  simp only [entering?, List.find?_eq_none, List.mem_finRange, forall_const, Bool.and_eq_true,
    Bool.or_eq_true, Bool.not_eq_true', decide_eq_true_eq, not_and]
  refine forall_congr' fun j => imp_congr_right fun _ => ?_
  rw [neg_zero]
  exact not_lt

theorem entering?_eq_some (h : t.entering? 0 firstPhase = some column) :
    (firstPhase = true ∨ isArtificial column = false) ∧ t.cost.coefficient column < 0 := by
  have := List.find?_some h
  simp only [Bool.and_eq_true, Bool.or_eq_true, Bool.not_eq_true', decide_eq_true_eq] at this
  exact ⟨this.1, by simpa using this.2⟩

/-! ### The leaving row -/

/-- How far a column can grow before the basic variable of a row is used up. -/
def ratio (t : Tableau K n m k) (column : Fin (n + m + k)) (i : Fin m) : K :=
  (t.rows.get i).side / (t.rows.get i).coefficient column

/-- Among some rows, the one that limits the growth of a column, together with its ratio. -/
structure Limit (t : Tableau K n m k) (column : Fin (n + m + k)) (among : Fin m → Prop)
    (best : Fin m × K) : Prop where
  member : among best.1
  positive : 0 < (t.rows.get best.1).coefficient column
  ratio_eq : best.2 = t.ratio column best.1
  /-- No other ratio is less, and none that is equal belongs to a lower basic column. -/
  least : ∀ i, among i → 0 < (t.rows.get i).coefficient column →
    best.2 < t.ratio column i ∨ best.2 = t.ratio column i ∧ t.basis.get best.1 ≤ t.basis.get i

/-- What a search among some rows has to answer. -/
def Found (t : Tableau K n m k) (column : Fin (n + m + k)) (among : Fin m → Prop) :
    Option (Fin m × K) → Prop
  | none => ∀ i, among i → (t.rows.get i).coefficient column ≤ 0
  | some best => t.Limit column among best

/-- One step of the search, named so that the proofs can talk about it. -/
def tryRow (t : Tableau K n m k) (eps : K) (column : Fin (n + m + k))
    (best : Option (Fin m × K)) (row : Fin m) : Option (Fin m × K) :=
  if eps < (t.rows.get row).coefficient column then
    match best with
    | none => some (row, t.ratio column row)
    | some (bestRow, bestRatio) =>
      if t.precedes eps row bestRow (t.ratio column row) bestRatio
      then some (row, t.ratio column row) else best
  else best

theorem leaving?_eq (eps : K) :
    t.leaving? eps column = (List.finRange m).foldl (t.tryRow eps column) none := rfl

/-- A pivot that the rules ask for. -/
structure Step (firstPhase : Bool) (t t' : Tableau K n m k) (row : Fin m)
    (column : Fin (n + m + k)) : Prop where
  enters : t.entering? 0 firstPhase = some column
  leaves : t.Limit column (fun _ => True) (row, t.ratio column row)
  result : t' = t.pivot 0 row column

theorem Step.ne_zero {t' : Tableau K n m k} {row : Fin m}
    (h : Step firstPhase t t' row column) : (t.rows.get row).coefficient column ≠ 0 :=
  h.leaves.positive.ne'

variable [IsStrictOrderedRing K]

private theorem precedes_iff {row best : Fin m} {r s : K} :
    t.precedes 0 row best r s = true ↔ r < s ∨ r = s ∧ t.basis.get row < t.basis.get best := by
  simp only [precedes, Bool.or_eq_true, Bool.and_eq_true, decide_eq_true_eq, Scalar.abs_eq]
  rw [sub_zero]
  refine or_congr Iff.rfl (and_congr_left fun _ => ?_)
  exact abs_nonpos_iff.trans sub_eq_zero

namespace Limit

variable {among : Fin m → Prop} {best : Fin m × K} {row : Fin m}

omit [IsStrictOrderedRing K] in
/-- A row without a positive coefficient limits nothing. -/
private theorem skip (h : t.Limit column among best)
    (hrow : ¬0 < (t.rows.get row).coefficient column) :
    t.Limit column (fun i => i = row ∨ among i) best := by
  refine ⟨Or.inr h.member, h.positive, h.ratio_eq, ?_⟩
  intro i hi hpos
  rcases hi with rfl | hi
  · exact absurd hpos hrow
  · exact h.least i hi hpos

/-- A row that precedes the best one precedes every other. -/
private theorem replace (h : t.Limit column among best)
    (hrow : 0 < (t.rows.get row).coefficient column)
    (hp : t.precedes 0 row best.1 (t.ratio column row) best.2 = true) :
    t.Limit column (fun i => i = row ∨ among i) (row, t.ratio column row) := by
  refine ⟨Or.inl rfl, hrow, rfl, ?_⟩
  intro i hi hpos
  rcases hi with rfl | hi
  · exact Or.inr ⟨rfl, le_refl _⟩
  · rw [precedes_iff] at hp
    rcases hp with hp | ⟨hp, hb⟩ <;> rcases h.least i hi hpos with hl | ⟨hl, hb'⟩
    · exact Or.inl (lt_trans hp hl)
    · exact Or.inl (hl ▸ hp)
    · exact Or.inl (hp ▸ hl)
    · exact Or.inr ⟨hp.trans hl, (lt_of_lt_of_le hb hb').le⟩

/-- A row that does not precede the best one leaves it the best. -/
private theorem keep (h : t.Limit column among best)
    (hp : ¬t.precedes 0 row best.1 (t.ratio column row) best.2 = true) :
    t.Limit column (fun i => i = row ∨ among i) best := by
  rw [precedes_iff, not_or, not_and] at hp
  refine ⟨Or.inr h.member, h.positive, h.ratio_eq, ?_⟩
  intro i hi hpos
  rcases hi with rfl | hi
  · rcases lt_or_eq_of_le (not_lt.mp hp.1) with hl | hl
    · exact Or.inl hl
    · exact Or.inr ⟨hl, not_lt.mp (hp.2 hl.symm)⟩
  · exact h.least i hi hpos

end Limit

private theorem tryRow_found {among : Fin m → Prop} {best : Option (Fin m × K)}
    (h : t.Found column among best) (row : Fin m) :
    t.Found column (fun i => i = row ∨ among i) (t.tryRow 0 column best row) := by
  unfold tryRow
  by_cases hrow : 0 < (t.rows.get row).coefficient column
  · rw [if_pos hrow]
    cases best with
    | none =>
        refine ⟨Or.inl rfl, hrow, rfl, ?_⟩
        intro i hi hpos
        rcases hi with rfl | hi
        · exact Or.inr ⟨rfl, le_refl _⟩
        · exact absurd hpos (not_lt.mpr (h i hi))
    | some best =>
        by_cases hp : t.precedes 0 row best.1 (t.ratio column row) best.2 = true
        · simp only [hp, if_true]
          exact Limit.replace h hrow hp
        · simp only [hp]
          exact Limit.keep h hp
  · rw [if_neg hrow]
    cases best with
    | none =>
        intro i hi
        rcases hi with rfl | hi
        · exact not_lt.mp hrow
        · exact h i hi
    | some best => exact Limit.skip h hrow

private theorem foldl_found : ∀ (l : List (Fin m)) {among : Fin m → Prop}
    {best : Option (Fin m × K)}, t.Found column among best →
      t.Found column (fun i => i ∈ l ∨ among i) (l.foldl (t.tryRow 0 column) best) := by
  intro l
  induction l with
  | nil => intro among best h; simpa using h
  | cons row rest ih =>
      intro among best h
      have := ih (tryRow_found h row)
      simpa only [List.foldl_cons, List.mem_cons, or_assoc, or_left_comm] using this

/-- **The ratio test finds the row that limits the growth of a column.** -/
theorem leaving?_found : t.Found column (fun _ => True) (t.leaving? 0 column) := by
  rw [leaving?_eq]
  have hnone : t.Found column (fun _ => False) none := fun i hi => hi.elim
  simpa using foldl_found (List.finRange m) hnone

/-! ### Steps and runs -/

/-- Why a phase stops at a tableau. -/
def Stopped (firstPhase : Bool) (t : Tableau K n m k) : Verdict → Prop
  | .optimal => t.entering? 0 firstPhase = none
  | .unbounded => ∃ column, t.entering? 0 firstPhase = some column ∧
      ∀ i, (t.rows.get i).coefficient column ≤ 0
  | .exhausted => True

/-- **What every pivot of a phase keeps holds at its end, and the verdict is right about it.** -/
theorem run_spec {P : Tableau K n m k → Prop}
    (hstep : ∀ t t' row column, P t → Step firstPhase t t' row column → P t') :
    ∀ (pivots : Nat) (t : Tableau K n m k), P t →
      P (run 0 firstPhase pivots t).2.1 ∧
        Stopped firstPhase (run 0 firstPhase pivots t).2.1 (run 0 firstPhase pivots t).1 := by
  intro pivots
  induction pivots with
  | zero =>
      intro t ht
      unfold run
      cases he : t.entering? 0 firstPhase with
      | none => exact ⟨ht, he⟩
      | some column => exact ⟨ht, trivial⟩
  | succ pivots ih =>
      intro t ht
      unfold run
      cases he : t.entering? 0 firstPhase with
      | none => exact ⟨ht, he⟩
      | some column =>
          dsimp only
          have hfound : t.Found column (fun _ => True) (t.leaving? 0 column) := leaving?_found
          cases hl : t.leaving? 0 column with
          | none =>
              rw [hl] at hfound
              exact ⟨ht, column, he, fun i => hfound i trivial⟩
          | some best =>
              obtain ⟨row, r⟩ := best
              rw [hl] at hfound
              have hr : r = t.ratio column row := hfound.ratio_eq
              subst hr
              exact ih _ (hstep t _ row column ht ⟨he, hfound, rfl⟩)

namespace Step

variable {t' : Tableau K n m k} {row : Fin m}

/-- A step keeps the basis: the ratio test overdraws no row. -/
theorem basic (h : Step firstPhase t t' row column) (hb : t.Basic) : t'.Basic := by
  have hratio : 0 ≤ t.ratio column row := div_nonneg (hb.sides row) h.leaves.positive.le
  rw [h.result]
  refine hb.pivot h.ne_zero hratio fun i _ => ?_
  by_cases hi : 0 < (t.rows.get i).coefficient column
  · have hle : t.ratio column row ≤ t.ratio column i := by
      rcases h.leaves.least i trivial hi with hl | ⟨hl, -⟩
      · exact hl.le
      · exact hl.le
    calc (t.rows.get i).coefficient column * t.ratio column row
        ≤ (t.rows.get i).coefficient column * t.ratio column i :=
          mul_le_mul_of_nonneg_left hle hi.le
      _ = (t.rows.get i).side := mul_div_cancel₀ _ hi.ne'
  · exact le_trans (mul_nonpos_of_nonpos_of_nonneg (not_lt.mp hi) hratio) (hb.sides i)

theorem priced {installed : Equation K (n + m + k)} (h : Step firstPhase t t' row column)
    (hb : t.Basic) (hp : t.Priced installed) : t'.Priced installed := by
  rw [h.result]
  exact hp.pivot hb h.ne_zero

theorem rowSpace_eq (h : Step firstPhase t t' row column) : t'.rowSpace = t.rowSpace := by
  rw [h.result]
  exact pivot_rowSpace h.ne_zero

end Step

end MarkovPlanning.Linear.Tableau
