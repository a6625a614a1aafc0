/-
What a pivot loses by taking numbers close to zero for zero.

A pivot with a positive tolerance is a row operation followed by two liberties: results
that are close to zero become zero, and a line whose entry in the entering column is
close to zero is left as it is but for that entry.  What a line loses is read off the
tableaux before and after the pivot (`Exchange.lost`): it is what is missing when the
new line and the multiple of the new pivot row that was taken from it (`Exchange.taken`)
are put together again.  No number that is lost exceeds the tolerance, or in the pivot
row the tolerance times the pivot (`Exchange.abs_lost_le`).

So every line of an early tableau is a combination of the lines of a later one, up to
the numbers that were lost in between.  A `Trail` follows one such line.  It knows the
share that each line of the present tableau has in it, and adds every number that is
lost, times the share of the line that loses it.  That is an equation and not a bound, so
nothing is multiplied that was not lost: `Trail.Leads.follow` is the step, and
`Trail.Leads.abs_residual_sub_le` says by how much a point that satisfies the present
rows can miss the line.
-/
import MarkovPlanning.Proofs.Linear.Pivot
import Mathlib

namespace MarkovPlanning.Linear

variable {K : Type} [Field K] [LinearOrder K]

namespace Tableau

/-! ### Numbers that are settled -/

section
variable [IsStrictOrderedRing K] {eps : K}

omit [IsStrictOrderedRing K] in
theorem settle_eq_zero_or_self (eps x : K) : settle eps x = 0 ∨ settle eps x = x := by
  unfold settle
  split
  · exact Or.inl rfl
  · exact Or.inr rfl

theorem abs_sub_settle_le (heps : 0 ≤ eps) (x : K) : |x - settle eps x| ≤ eps := by
  unfold settle
  split
  · rename_i h
    rw [Scalar.abs_eq] at h
    rw [sub_zero]
    exact h.le
  · rw [sub_self, abs_zero]
    exact heps

theorem abs_settle_le (eps x : K) : |settle eps x| ≤ |x| := by
  rcases settle_eq_zero_or_self eps x with h | h
  · rw [h, abs_zero]
    exact abs_nonneg x
  · rw [h]

/-- A number that is not far below zero stays so. -/
theorem neg_le_settle (eps : K) {x bound : K} (hbound : 0 ≤ bound) (hx : -bound ≤ x) :
    -bound ≤ settle eps x := by
  rcases settle_eq_zero_or_self eps x with h | h
  · rw [h]
    exact neg_nonpos.mpr hbound
  · rwa [h]

end

/-! ### Lines -/

variable {n m k : Nat} {t : Tableau K n m k} {eps : K} {row : Fin m} {column : Fin (n + m + k)}

/-- The rows of a tableau, and its costs as one line more. -/
def line (t : Tableau K n m k) : Option (Fin m) → Option (Fin (n + m + k)) → K
  | none => t.cost.vector
  | some i => (t.rows.get i).vector

/-- The row that leaves, scaled, before its entry in the column is written. -/
private def scaled (t : Tableau K n m k) (eps : K) (row : Fin m) (column : Fin (n + m + k)) :
    Equation K (n + m + k) :=
  (t.rows.get row).map fun x => settle eps (x * (1 / (t.rows.get row).coefficient column))

/-- The equation of a line. -/
private def equation (t : Tableau K n m k) : Option (Fin m) → Equation K (n + m + k)
  | none => t.cost
  | some i => t.rows.get i

variable [IsStrictOrderedRing K]

private theorem coefficient_scaled_column (heps : eps ≤ 1)
    (hne : (t.rows.get row).coefficient column ≠ 0) :
    (t.scaled eps row column).coefficient column = 1 := by
  rw [scaled, Equation.coefficient_map, mul_one_div_cancel hne, settle_one heps]

private theorem line_pivot_self (heps : eps ≤ 1)
    (hne : (t.rows.get row).coefficient column ≠ 0) :
    (t.pivot eps row column).line (some row) = (t.scaled eps row column).vector := by
  simp only [line, pivot, Vector.get_ofFn, if_pos]
  exact Equation.vector_set_self (coefficient_scaled_column heps hne)

omit [IsStrictOrderedRing K] in
private theorem line_pivot_of_ne (t : Tableau K n m k) (eps : K) (column : Fin (n + m + k))
    {l : Option (Fin m)} (hl : l ≠ some row) :
    (t.pivot eps row column).line l
      = (clear eps (t.scaled eps row column) column (t.equation l)).vector := by
  cases l with
  | none => rfl
  | some i =>
      have hi : i ≠ row := fun he => hl (congrArg some he)
      simp only [line, pivot, Vector.get_ofFn, if_neg hi]
      rfl

end Tableau

/-! ### What a pivot loses -/

open Tableau
open Equation (residual)

/-- A pivot that is about to be made. -/
structure Exchange (K : Type) (n m k : Nat) where
  before : Tableau K n m k
  row : Fin m
  column : Fin (n + m + k)

namespace Exchange

variable {n m k : Nat} (exchange : Exchange K n m k) (eps : K)

/-- The tableau that the pivot leads to. -/
def after : Tableau K n m k := exchange.before.pivot eps exchange.row exchange.column

/-- The number of a line in the entering column. -/
def entry (l : Option (Fin m)) : K := exchange.before.line l (some exchange.column)

/-- The multiple of the new pivot row that a line holds. -/
def taken (l : Option (Fin m)) : K := if eps < |exchange.entry l| then exchange.entry l else 0

/-- What a line loses by the pivot: what it holds besides its new numbers and the multiple of the
new pivot row. -/
def lost (l : Option (Fin m)) : Option (Fin (n + m + k)) → K :=
  exchange.before.line l - exchange.taken eps l • (exchange.after eps).line (some exchange.row)
    - if l = some exchange.row then 0 else (exchange.after eps).line l

theorem line_eq (l : Option (Fin m)) :
    exchange.before.line l
      = exchange.taken eps l • (exchange.after eps).line (some exchange.row)
        + (if l = some exchange.row then 0 else (exchange.after eps).line l)
        + exchange.lost eps l := by
  rw [lost]
  abel

variable {exchange eps}

variable [IsStrictOrderedRing K]

/-- The pivot row is its new numbers times the pivot, up to the tolerance times the pivot. -/
private theorem abs_lost_self_le (h0 : 0 ≤ eps) (h1 : eps ≤ 1)
    (hlarge : eps < |exchange.entry (some exchange.row)|) (j : Option (Fin (n + m + k))) :
    |exchange.lost eps (some exchange.row) j| ≤ |exchange.entry (some exchange.row)| * eps := by
  have hne : (exchange.before.rows.get exchange.row).coefficient exchange.column ≠ 0 :=
    abs_pos.mp (h0.trans_lt hlarge)
  set pivot := (exchange.before.rows.get exchange.row).coefficient exchange.column with hpivot
  have hentry : exchange.entry (some exchange.row) = pivot := rfl
  -- what is lost is the pivot times what the scaled number loses
  have hlost : exchange.lost eps (some exchange.row) j
      = pivot * (exchange.before.line (some exchange.row) j * (1 / pivot)
          - settle eps (exchange.before.line (some exchange.row) j * (1 / pivot))) := by
    have hscaled : (exchange.after eps).line (some exchange.row) j
        = settle eps (exchange.before.line (some exchange.row) j * (1 / pivot)) := by
      rw [after, line_pivot_self h1 hne]
      cases j with
      | none => rfl
      | some j => exact Equation.coefficient_map _ _ j
    rw [lost, if_pos rfl, sub_zero, Pi.sub_apply, Pi.smul_apply, smul_eq_mul, hscaled, taken,
      if_pos hlarge, hentry, mul_sub, mul_left_comm, mul_one_div_cancel hne, mul_one]
  rw [hlost, abs_mul, hentry]
  exact mul_le_mul_of_nonneg_left (abs_sub_settle_le h0 _) (abs_nonneg _)

/-- Any other line is its new numbers and the multiple of the pivot row, up to the tolerance. -/
private theorem abs_lost_of_ne_le (h0 : 0 ≤ eps) (h1 : eps ≤ 1)
    (hne : exchange.entry (some exchange.row) ≠ 0) {l : Option (Fin m)}
    (hl : l ≠ some exchange.row) (j : Option (Fin (n + m + k))) :
    |exchange.lost eps l j| ≤ eps := by
  have hone := coefficient_scaled_column (t := exchange.before) h1 hne
  have hpivotrow := line_pivot_self (t := exchange.before) h1 hne
  have hline := line_pivot_of_ne exchange.before eps exchange.column hl
  have hentry : (exchange.before.equation l).coefficient exchange.column = exchange.entry l := by
    cases l <;> rfl
  have hbefore : exchange.before.line l = (exchange.before.equation l).vector := by
    cases l <;> rfl
  rw [lost, if_neg hl, after, hpivotrow, hline, hbefore]
  by_cases hlarge : eps < |exchange.entry l|
  · -- the multiple is taken away, and what is left of each number is settled
    rw [taken, if_pos hlarge, ← hentry] at *
    cases j with
    | none =>
        simp only [Pi.sub_apply, Pi.smul_apply, smul_eq_mul, Equation.vector_none, side_clear,
          if_pos hlarge]
        exact abs_sub_settle_le h0 _
    | some j =>
        simp only [Pi.sub_apply, Pi.smul_apply, smul_eq_mul, Equation.vector_some,
          coefficient_clear, if_pos hlarge]
        by_cases hj : j = exchange.column
        · rw [if_pos hj, hj, hone, mul_one, sub_self, sub_zero, abs_zero]
          exact h0
        · rw [if_neg hj]
          exact abs_sub_settle_le h0 _
  · -- nothing is taken away, but the entry is dropped
    rw [taken, if_neg hlarge, zero_smul, sub_zero]
    rw [← hentry] at hlarge
    cases j with
    | none =>
        rw [Pi.sub_apply, Equation.vector_none, Equation.vector_none, side_clear, if_neg hlarge,
          sub_self, abs_zero]
        exact h0
    | some j =>
        rw [Pi.sub_apply, Equation.vector_some, Equation.vector_some, coefficient_clear,
          if_neg hlarge]
        by_cases hj : j = exchange.column
        · rw [if_pos hj, hj, sub_zero]
          exact not_lt.mp hlarge
        · rw [if_neg hj, sub_self, abs_zero]
          exact h0

/-- **No number that is lost exceeds the tolerance**, times the pivot in the pivot row. -/
theorem abs_lost_le (h0 : 0 ≤ eps) (h1 : eps ≤ 1)
    (hlarge : eps < |exchange.entry (some exchange.row)|) (l : Option (Fin m))
    (j : Option (Fin (n + m + k))) :
    |exchange.lost eps l j| ≤ if l = some exchange.row then |exchange.entry l| * eps else eps := by
  by_cases hl : l = some exchange.row
  · rw [if_pos hl, hl]
    exact abs_lost_self_le h0 h1 hlarge j
  · rw [if_neg hl]
    exact abs_lost_of_ne_le h0 h1 (abs_pos.mp (h0.trans_lt hlarge)) hl j

end Exchange

/-! ### Lines of earlier tableaux -/

/-- What is known of a line of an earlier tableau: the share that each present line has in it, and
the numbers that it has lost. -/
structure Trail (K : Type) (n m k : Nat) where
  shares : Option (Fin m) → K
  drops : Option (Fin (n + m + k)) → K

namespace Trail

variable {n m k : Nat}

/-- Nothing is lost to begin with. -/
def start (shares : Option (Fin m) → K) : Trail K n m k where
  shares
  drops := 0

/-- What a pivot makes of a trail. -/
def follow (eps : K) (trail : Trail K n m k) (exchange : Exchange K n m k) : Trail K n m k where
  shares := Function.update trail.shares (some exchange.row)
    (∑ l, exchange.taken eps l * trail.shares l)
  drops j := trail.drops j + ∑ l, |trail.shares l| * |exchange.lost eps l j|

/-- By how much a point may miss the line for the numbers that were lost. -/
def missed (trail : Trail K n m k) (y : Fin (n + m + k) → K) : K :=
  trail.drops none + ∑ j, trail.drops (some j) * |y j|

/-- A line is what the lines of a tableau have as their shares in it, and no more than the numbers
that were lost. -/
def Leads (trail : Trail K n m k) (source : Option (Fin (n + m + k)) → K) (t : Tableau K n m k) :
    Prop :=
  ∃ error, source = ∑ l, trail.shares l • t.line l + error ∧ ∀ j, |error j| ≤ trail.drops j

variable {trail : Trail K n m k} {source : Option (Fin (n + m + k)) → K} {t : Tableau K n m k}
  {exchange : Exchange K n m k} {eps : K}

theorem shares_follow (l : Option (Fin m)) :
    (trail.follow eps exchange).shares l
      = if l = some exchange.row then ∑ l, exchange.taken eps l * trail.shares l
        else trail.shares l :=
  Function.update_apply _ _ _ _

variable [IsStrictOrderedRing K]

theorem leads_start (shares : Option (Fin m) → K) :
    (start shares).Leads (∑ l, shares l • t.line l) t :=
  ⟨0, (add_zero _).symm, fun _ => abs_zero.le⟩

omit [IsStrictOrderedRing K] in
/-- The pivot row has its new share, and the other lines have theirs. -/
private theorem sum_shares_follow (lines : Option (Fin m) → Option (Fin (n + m + k)) → K) :
    ∑ l, (trail.follow eps exchange).shares l • lines l
      = (∑ l, exchange.taken eps l * trail.shares l) • lines (some exchange.row)
        + ∑ l, trail.shares l • (if l = some exchange.row then 0 else lines l) := by
  have hterm : ∀ l, (trail.follow eps exchange).shares l • lines l
      = (if l = some exchange.row then
          (∑ l, exchange.taken eps l * trail.shares l) • lines (some exchange.row) else 0)
        + trail.shares l • (if l = some exchange.row then 0 else lines l) := by
    intro l
    rw [shares_follow]
    by_cases hl : l = some exchange.row
    · rw [hl, if_pos rfl, if_pos rfl, if_pos rfl, smul_zero, add_zero]
    · rw [if_neg hl, if_neg hl, if_neg hl, zero_add]
  simp only [hterm, Finset.sum_add_distrib, Finset.sum_ite_eq', Finset.mem_univ, if_true]

/-- **A pivot moves shares to the pivot row, and loses what its lines lose.** -/
theorem Leads.follow (h : trail.Leads source exchange.before) :
    (trail.follow eps exchange).Leads source (exchange.after eps) := by
  obtain ⟨error, hsource, herror⟩ := h
  refine ⟨error + ∑ l, trail.shares l • exchange.lost eps l, ?_, fun j => ?_⟩
  · have hlines : ∑ l, trail.shares l • exchange.before.line l
        = (∑ l, exchange.taken eps l * trail.shares l)
            • (exchange.after eps).line (some exchange.row)
          + ∑ l, trail.shares l •
              (if l = some exchange.row then 0 else (exchange.after eps).line l)
          + ∑ l, trail.shares l • exchange.lost eps l := by
      simp only [exchange.line_eq eps, smul_add, Finset.sum_add_distrib, Finset.sum_smul,
        smul_smul, mul_comm (trail.shares _)]
    rw [hsource, hlines, sum_shares_follow]
    abel
  · refine (abs_add_le _ _).trans (add_le_add (herror j) ?_)
    rw [Finset.sum_apply]
    refine (Finset.abs_sum_le_sum_abs _ _).trans_eq (Finset.sum_congr rfl fun l _ => ?_)
    rw [Pi.smul_apply, smul_eq_mul, abs_mul]

/-- Numbers that are lost move a point off an equation by no more than is missed for them. -/
theorem abs_residual_le {error : Option (Fin (n + m + k)) → K}
    (h : ∀ j, |error j| ≤ trail.drops j) (y : Fin (n + m + k) → K) :
    |residual y error| ≤ trail.missed y := by
  calc |residual y error|
      ≤ |∑ j, error (some j) * y j| + |error none| := abs_sub _ _
    _ ≤ ∑ j, trail.drops (some j) * |y j| + trail.drops none := by
        refine add_le_add ((Finset.abs_sum_le_sum_abs _ _).trans ?_) (h none)
        refine Finset.sum_le_sum fun j _ => ?_
        rw [abs_mul]
        exact mul_le_mul_of_nonneg_right (h (some j)) (abs_nonneg _)
    _ = trail.missed y := add_comm _ _

/-- **A point that satisfies the present rows misses an earlier line by what was lost**, and by
what the costs make of it where they have a share. -/
theorem Leads.abs_residual_sub_le (h : trail.Leads source t) {y : Fin (n + m + k) → K}
    (hy : t.Solves y) :
    |residual y source - trail.shares none * residual y t.cost.vector| ≤ trail.missed y := by
  obtain ⟨error, hsource, herror⟩ := h
  have hrows : ∀ i, residual y (t.line (some i)) = 0 := fun i =>
    (Equation.holds_iff _ _).mp (hy i)
  have hresidual : residual y source
      = trail.shares none * residual y t.cost.vector + residual y error := by
    rw [hsource, map_add, map_sum, Fintype.sum_option]
    simp only [map_smul, smul_eq_mul, hrows, mul_zero, Finset.sum_const_zero, add_zero]
    rfl
  rw [hresidual, add_sub_cancel_left]
  exact abs_residual_le herror y

/-! #### Trails that lose nothing -/

theorem drops_follow_of_lost_eq_zero (h : ∀ l j, exchange.lost eps l j = 0) :
    (trail.follow eps exchange).drops = trail.drops := by
  funext j
  simp only [Trail.follow, h, abs_zero, mul_zero, Finset.sum_const_zero, add_zero]

omit [IsStrictOrderedRing K] in
theorem missed_eq_zero (h : trail.drops = 0) (y : Fin (n + m + k) → K) : trail.missed y = 0 := by
  simp only [missed, h, Pi.zero_apply, zero_mul, Finset.sum_const_zero, add_zero]

end Trail

end MarkovPlanning.Linear
