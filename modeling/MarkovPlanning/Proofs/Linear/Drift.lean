/-
What the pivots of a search do to the sides.

The sides become negative for two reasons only.  The ratio that the ratio test chooses may
exceed the least one (`Exchange.overshoot`), and a row that the column takes from is then
overdrawn by its entry times the excess.  And where the row that leaves has a negative side
already, the column enters with a negative amount, which is passed on to the rows that it
gives to: one over the pivot for the pivot row, the entry over the pivot for any other.
`Exchange.charge` keeps these accounts row by row, and `Owes.charge` says that no side is
below zero by more.

Artificial variables that the first phase leaves close to zero are driven out by pivots
that do not ask for ratios.  What such a variable has left goes the same way, to every
row that the column occurs in (`Exchange.spill`).  Those that stay have rows in which nothing
but artificial columns is left (`Spent`), and the second phase does not touch these rows.
-/
import MarkovPlanning.Proofs.Linear.Chain
import Mathlib

namespace MarkovPlanning.Linear

variable {K : Type} [Field K] [LinearOrder K] {n m k : Nat}

open Tableau

/-! ### Sides -/

namespace Exchange

variable {exchange : Exchange K n m k} {eps : K}

/-- The amount that the column enters with. -/
def amount (exchange : Exchange K n m k) (eps : K) : K :=
  settle eps (exchange.before.ratio exchange.column exchange.row)

/-- By how much the ratio that is chosen exceeds the least one. -/
def overshoot (exchange : Exchange K n m k) (eps : K) : K :=
  Finset.univ.fold max 0 fun i =>
    if eps < exchange.entry (some i) then
      exchange.before.ratio exchange.column exchange.row - exchange.before.ratio exchange.column i
    else 0

/-- What the rows may owe after a pivot.  The pivot row owes what it owed for one of the column, a
row that the column takes from is overdrawn by no more than the overshoot, and one that it gives to
owes what its share of the pivot row owes besides. -/
def charge (eps : K) (owed : Fin m → K) (exchange : Exchange K n m k) : Fin m → K := fun i =>
  let passed := owed exchange.row / exchange.entry (some exchange.row)
  let taken := exchange.taken eps (some i)
  if i = exchange.row then passed
  else if 0 < taken then max (owed i) (taken * exchange.overshoot eps)
  else owed i + |taken| * passed

/-- What is left in the rows when a variable leaves that is not zero. -/
def spill (eps left : K) (debts : Fin m → K) (exchange : Exchange K n m k) : Fin m → K := fun i =>
  let passed := left / |exchange.entry (some exchange.row)|
  if i = exchange.row then passed else debts i + |exchange.taken eps (some i)| * passed

theorem side_after_row :
    ((exchange.after eps).rows.get exchange.row).side = exchange.amount eps := by
  simp only [after, amount, pivot, Vector.get_ofFn, if_pos, Equation.set, Equation.map, ratio,
    mul_one_div]

variable [IsStrictOrderedRing K]

/-- A side that is not the one of the pivot row loses what is taken for the column, and may be
settled. -/
theorem side_after_of_ne (eps : K) {i : Fin m} (hi : i ≠ exchange.row) :
    let rest := (exchange.before.rows.get i).side
      - exchange.taken eps (some i) * exchange.amount eps
    ((exchange.after eps).rows.get i).side = rest ∨
      ((exchange.after eps).rows.get i).side = settle eps rest := by
  have hside : ((exchange.after eps).rows.get i).side
      = if eps < |exchange.entry (some i)| then
          settle eps ((exchange.before.rows.get i).side
            - exchange.entry (some i) * exchange.amount eps)
        else (exchange.before.rows.get i).side := by
    simp only [after, pivot, Vector.get_ofFn, if_neg hi]
    rw [side_clear]
    simp only [Equation.map, amount, ratio, mul_one_div]
    rfl
  rw [hside, taken]
  split
  · exact Or.inr rfl
  · rw [zero_mul, sub_zero]
    exact Or.inl rfl

/-- A side of which no more is taken than some bound allows stays above it. -/
theorem neg_le_side_after {i : Fin m} (hi : i ≠ exchange.row) {bound : K} (hbound : 0 ≤ bound)
    (h : -bound ≤ (exchange.before.rows.get i).side
      - exchange.taken eps (some i) * exchange.amount eps) :
    -bound ≤ ((exchange.after eps).rows.get i).side := by
  rcases side_after_of_ne eps hi with hside | hside
  · rw [hside]
    exact h
  · rw [hside]
    exact neg_le_settle eps hbound h

/-- A row that the column takes from has a large entry there. -/
theorem lt_entry_of_taken_pos {l : Option (Fin m)} (h : 0 < exchange.taken eps l) :
    eps < exchange.entry l ∧ exchange.taken eps l = exchange.entry l := by
  unfold taken at h ⊢
  split at h
  · rename_i hlarge
    rw [if_pos hlarge]
    rw [abs_of_pos h] at hlarge
    exact ⟨hlarge, rfl⟩
  · exact absurd h (lt_irrefl 0)

omit [IsStrictOrderedRing K] in
theorem overshoot_nonneg : 0 ≤ exchange.overshoot eps := (Finset.le_fold_max _).mpr (Or.inl le_rfl)

theorem ratio_le_add_overshoot {i : Fin m} (hi : eps < exchange.entry (some i)) :
    exchange.before.ratio exchange.column exchange.row
      ≤ exchange.before.ratio exchange.column i + exchange.overshoot eps := by
  have hle : exchange.before.ratio exchange.column exchange.row
      - exchange.before.ratio exchange.column i ≤ exchange.overshoot eps :=
    (Finset.le_fold_max _).mpr (Or.inr ⟨i, Finset.mem_univ i, by rw [if_pos hi]⟩)
  linarith

/-- **The ratio test overshoots by no more than the tolerance per row.** -/
theorem Chosen.overshoot_le {firstPhase : Bool} (h0 : 0 ≤ eps)
    (h : exchange.Chosen eps firstPhase) : exchange.overshoot eps ≤ m * eps := by
  have hslack : 0 ≤ m * eps := mul_nonneg (Nat.cast_nonneg m) h0
  refine (Finset.fold_max_le _).mpr ⟨hslack, fun i _ => ?_⟩
  split
  · rename_i hi
    linarith [h.least i hi]
  · exact hslack

/-- The amount that a column enters with is no further below zero than its row passes on. -/
theorem neg_le_amount {owed : Fin m → K} (hnonneg : 0 ≤ owed exchange.row)
    (hside : -owed exchange.row ≤ (exchange.before.rows.get exchange.row).side)
    (hpos : 0 < exchange.entry (some exchange.row)) :
    -(owed exchange.row / exchange.entry (some exchange.row)) ≤ exchange.amount eps := by
  refine neg_le_settle eps (div_nonneg hnonneg hpos.le) ?_
  rw [← neg_div]
  exact div_le_div_of_nonneg_right hside hpos.le

/-- Where a variable leaves that is close to zero, the column enters with little. -/
theorem abs_amount_le (eps : K) {left : K}
    (hleft : |(exchange.before.rows.get exchange.row).side| ≤ left) :
    |exchange.amount eps| ≤ left / |exchange.entry (some exchange.row)| := by
  refine (abs_settle_le _ _).trans ?_
  rw [ratio, abs_div]
  exact div_le_div_of_nonneg_right hleft (abs_nonneg _)

end Exchange

namespace Tableau

variable {eps : K}

/-- No side is further below zero than its row owes. -/
structure Owes (t : Tableau K n m k) (owed : Fin m → K) : Prop where
  nonneg : ∀ i, 0 ≤ owed i
  side : ∀ i, -owed i ≤ (t.rows.get i).side

variable [IsStrictOrderedRing K] {exchange : Exchange K n m k} {owed : Fin m → K}

/-- A row that the column takes from is overdrawn by no more than the overshoot. -/
private theorem neg_max_le_sub_taken (h0 : 0 ≤ eps) {i : Fin m} {bound : K}
    (htaken : 0 < exchange.taken eps (some i))
    (hside : -bound ≤ (exchange.before.rows.get i).side) :
    -max bound (exchange.taken eps (some i) * exchange.overshoot eps)
      ≤ (exchange.before.rows.get i).side
        - exchange.taken eps (some i) * exchange.amount eps := by
  obtain ⟨hlarge, hentry⟩ := Exchange.lt_entry_of_taken_pos htaken
  rcases settle_eq_zero_or_self eps (exchange.before.ratio exchange.column exchange.row)
    with hzero | hself
  · rw [Exchange.amount, hzero, mul_zero, sub_zero]
    exact (neg_le_neg (le_max_left _ _)).trans hside
  · -- as much is there as the ratio of the row allows
    have hratio : exchange.taken eps (some i) * exchange.before.ratio exchange.column i
        = (exchange.before.rows.get i).side := by
      rw [hentry, ratio]
      exact mul_div_cancel₀ _ (h0.trans_lt hlarge).ne'
    have hdrawn := mul_le_mul_of_nonneg_left (Exchange.ratio_le_add_overshoot hlarge) htaken.le
    rw [mul_add, hratio] at hdrawn
    rw [Exchange.amount, hself]
    linarith [le_max_right bound (exchange.taken eps (some i) * exchange.overshoot eps)]

/-- **What the rows owe after a pivot that the rules ask for.** -/
theorem Owes.charge {firstPhase : Bool} (h0 : 0 ≤ eps) (h : exchange.before.Owes owed)
    (hc : exchange.Chosen eps firstPhase) :
    (exchange.after eps).Owes (exchange.charge eps owed) := by
  have hpos : 0 < exchange.entry (some exchange.row) := h0.trans_lt hc.large
  set passed := owed exchange.row / exchange.entry (some exchange.row) with hpassed
  have hnonneg : 0 ≤ passed := div_nonneg (h.nonneg _) hpos.le
  have hamount : -passed ≤ exchange.amount eps :=
    Exchange.neg_le_amount (h.nonneg _) (h.side _) hpos
  constructor
  · intro i
    unfold Exchange.charge
    dsimp only
    split
    · exact hnonneg
    · split
      · exact le_max_of_le_left (h.nonneg i)
      · exact add_nonneg (h.nonneg i) (mul_nonneg (abs_nonneg _) hnonneg)
  · intro i
    unfold Exchange.charge
    dsimp only
    by_cases hi : i = exchange.row
    · rw [if_pos hi, hi, Exchange.side_after_row]
      exact hamount
    · rw [if_neg hi]
      have hside := h.side i
      by_cases htaken : 0 < exchange.taken eps (some i)
      · rw [if_pos htaken]
        exact Exchange.neg_le_side_after hi (le_max_of_le_left (h.nonneg i))
          (neg_max_le_sub_taken h0 htaken hside)
      · -- the column gives to the row, and passes on what the pivot row owed
        rw [if_neg htaken]
        refine Exchange.neg_le_side_after hi
          (add_nonneg (h.nonneg i) (mul_nonneg (abs_nonneg _) hnonneg)) ?_
        have hgiven := mul_le_mul_of_nonneg_left hamount (neg_nonneg.mpr (not_lt.mp htaken))
        rw [abs_of_nonpos (not_lt.mp htaken)]
        linarith

/-- Along a chain of pivots that the rules ask for, what the rows owe is kept up. -/
theorem Owes.foldl {firstPhase : Bool} (h0 : 0 ≤ eps) {first last : Tableau K n m k}
    {l : List (Exchange K n m k)} (hchain : Chained eps first l last)
    (hchosen : ∀ exchange ∈ l, exchange.Chosen eps firstPhase) (h : first.Owes owed) :
    last.Owes (l.foldl (Exchange.charge eps) owed) :=
  hchain.foldl _ (P := fun owed t => Owes t owed)
    (fun _ exchange hexchange h => h.charge h0 (hchosen exchange hexchange)) h

omit [IsStrictOrderedRing K] in
/-- Where nothing is overshot, nothing is owed. -/
theorem foldl_charge_zero {l : List (Exchange K n m k)}
    (h : ∀ exchange ∈ l, exchange.overshoot eps = 0) :
    l.foldl (Exchange.charge eps) 0 = 0 := by
  induction l with
  | nil => rfl
  | cons exchange rest ih =>
      have hzero : exchange.charge eps 0 = 0 := by
        funext i
        simp [Exchange.charge, h exchange List.mem_cons_self]
      rw [List.foldl_cons, hzero]
      exact ih fun other hother => h other (List.mem_cons_of_mem _ hother)

/-! ### Artificial variables that stay close to zero -/

section
variable {left : K} (hleft : |(exchange.before.rows.get exchange.row).side| ≤ left)
include hleft

/-- What is taken from a side when a variable leaves that is close to zero. -/
private theorem abs_taken_mul_amount_le (eps : K) (i : Fin m) :
    |exchange.taken eps (some i) * exchange.amount eps|
      ≤ |exchange.taken eps (some i)| * (left / |exchange.entry (some exchange.row)|) := by
  rw [abs_mul]
  exact mul_le_mul_of_nonneg_left (Exchange.abs_amount_le eps hleft) (abs_nonneg _)

/-- Sides that are not far below zero stay so when such a variable leaves. -/
theorem Owes.spill (h : exchange.before.Owes owed) :
    (exchange.after eps).Owes (exchange.spill eps left owed) := by
  set passed := left / |exchange.entry (some exchange.row)| with hpassed
  have hamount := Exchange.abs_amount_le eps hleft
  have hnonneg : 0 ≤ passed := (abs_nonneg _).trans hamount
  have hsum : ∀ i, 0 ≤ owed i + |exchange.taken eps (some i)| * passed := fun i =>
    add_nonneg (h.nonneg i) (mul_nonneg (abs_nonneg _) hnonneg)
  constructor
  · intro i
    unfold Exchange.spill
    dsimp only
    split
    · exact hnonneg
    · exact hsum i
  · intro i
    unfold Exchange.spill
    dsimp only
    by_cases hi : i = exchange.row
    · rw [if_pos hi, hi, Exchange.side_after_row]
      exact neg_le_of_abs_le hamount
    · rw [if_neg hi]
      refine Exchange.neg_le_side_after hi (hsum i) ?_
      linarith [h.side i, le_of_abs_le (abs_taken_mul_amount_le hleft eps i)]

/-- Sides that are close to zero stay so when such a variable leaves. -/
theorem abs_side_after_le {debts : Fin m → K} {i : Fin m}
    (hi : i ≠ exchange.row) (hdebt : |(exchange.before.rows.get i).side| ≤ debts i) :
    |((exchange.after eps).rows.get i).side| ≤ exchange.spill eps left debts i := by
  have htaken := abs_taken_mul_amount_le hleft eps i
  have hrest : |(exchange.before.rows.get i).side
      - exchange.taken eps (some i) * exchange.amount eps| ≤ exchange.spill eps left debts i := by
    unfold Exchange.spill
    dsimp only
    rw [if_neg hi]
    exact (abs_sub _ _).trans (add_le_add hdebt htaken)
  rcases Exchange.side_after_of_ne eps hi with hside | hside
  · rw [hside]
    exact hrest
  · rw [hside]
    exact (abs_settle_le _ _).trans hrest

end

/-- In some rows, what an artificial variable is basic in holds nothing but artificial columns, up
to the tolerance. -/
def Spent (t : Tableau K n m k) (eps : K) (done : Fin m → Prop) : Prop :=
  ∀ i, done i → isArtificial (t.basis.get i) = true → ∀ j, isArtificial j = false →
    |(t.rows.get i).coefficient j| ≤ eps

/-- A row whose entry is close to zero only loses that entry. -/
theorem row_after_of_small {i : Fin m} (hi : i ≠ exchange.row)
    (hsmall : |exchange.entry (some i)| ≤ eps) :
    (exchange.after eps).rows.get i = (exchange.before.rows.get i).set exchange.column 0 := by
  have hnot : ¬eps < Scalar.abs ((exchange.before.rows.get i).coefficient exchange.column) := by
    rw [Scalar.abs_eq]
    exact not_lt.mpr hsmall
  simp only [Exchange.after, pivot, Vector.get_ofFn, if_neg hi, clear, if_neg hnot]

/-- **Pivots on columns that are not artificial leave the rows of artificial variables alone.** -/
theorem Spent.pivot {done : Fin m → Prop} (h0 : 0 ≤ eps) (h : exchange.before.Spent eps done)
    (hcolumn : isArtificial exchange.column = false) {i : Fin m} (hdone : done i)
    (hi : isArtificial ((exchange.after eps).basis.get i) = true) :
    isArtificial (exchange.before.basis.get i) = true ∧
      ((exchange.after eps).rows.get i).side = (exchange.before.rows.get i).side ∧
      ∀ j, isArtificial j = false → |((exchange.after eps).rows.get i).coefficient j| ≤ eps := by
  obtain ⟨hne, hi⟩ := isArtificial_basis_pivot hcolumn hi
  have hsmall := h i hdone hi
  refine ⟨hi, ?_⟩
  rw [row_after_of_small hne (hsmall _ hcolumn)]
  refine ⟨rfl, fun j hj => ?_⟩
  rw [Equation.coefficient_set]
  split
  · rwa [abs_zero]
  · exact hsmall j hj

/-- **Driving the artificial variables out leaves those that stay with such rows.** -/
theorem driveOut_spent (h0 : 0 ≤ eps) (t : Tableau K n m k) :
    (t.driveOut eps).Spent eps fun _ => True := by
  have hfold : ∀ (l : List (Fin m)) (done : Fin m → Prop) (t : Tableau K n m k),
      t.Spent eps done →
        (l.foldl (fun t row => t.driveRow eps row) t).Spent eps fun i => i ∈ l ∨ done i := by
    intro l
    induction l with
    | nil => intro done t h; simpa using h
    | cons row rest ih =>
        intro done t h
        have hrow : (t.driveRow eps row).Spent eps fun i => i = row ∨ done i := by
          intro i hdone hi
          unfold driveRow at hi ⊢
          cases hreplace : t.replacement? eps row with
          | none =>
              rw [hreplace] at hi
              intro j hj
              rcases hdone with rfl | hdone
              · exact replacement?_eq_none hreplace hi hj
              · exact h i hdone hi j hj
          | some column =>
              rw [hreplace] at hi
              have hcolumn := (replacement?_eq_some hreplace).2.1
              have hne := (isArtificial_basis_pivot hcolumn hi).1
              have hbefore : (Exchange.mk t row column).before.Spent eps done := h
              exact (hbefore.pivot h0 hcolumn (hdone.resolve_left hne) hi).2.2
        simpa only [List.foldl_cons, List.mem_cons, or_assoc, or_left_comm] using ih _ _ hrow
  rw [driveOut_eq]
  simpa using hfold (List.finRange m) (fun _ => False) t fun _ h => h.elim

end Tableau

end MarkovPlanning.Linear
