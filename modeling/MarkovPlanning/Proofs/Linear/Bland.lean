/-
No basis comes back.

Within a phase the value of the objective never gets worse, but a pivot on a row whose
side is zero leaves it as it is, so the value alone does not rule out that the method
runs in a circle.  The rule for choosing columns does: of the columns that can be
improved the first one enters, and of the rows with the least ratio the one with the
lowest basic column leaves.

Suppose a stretch of steps ends with the basic columns it began with.  Then the value is
the same throughout, every ratio is zero, and every column that enters somewhere leaves
somewhere.  Take the last such column, `q`, a tableau at which it enters and one at which
it leaves for some column `p`.  Growing `p` at the second tableau solves the rows, so it
must change the value by the same amount under the costs of either tableau.  Under its
own costs the value improves.  Under those of the first tableau it cannot: the costs of
columns before `q` are not negative there, and `q` itself loses.  `columns_ne` is the
conclusion.
-/
import MarkovPlanning.Proofs.Linear.Phase
import Mathlib

namespace MarkovPlanning.Linear.Tableau

variable {K : Type} [Field K] {n m k : Nat} {t t' : Tableau K n m k}

/-! ### Basic columns -/

/-- The columns of the basis. -/
def columns (t : Tableau K n m k) : Finset (Fin (n + m + k)) := Finset.univ.image t.basis.get

omit [Field K] in
theorem mem_columns {j : Fin (n + m + k)} : j ∈ t.columns ↔ ∃ i, t.basis.get i = j := by
  simp [columns]

omit [Field K] in
theorem basis_mem_columns (i : Fin m) : t.basis.get i ∈ t.columns := mem_columns.mpr ⟨i, rfl⟩

theorem basicPoint_eq_zero {j : Fin (n + m + k)} (h : j ∉ t.columns) : t.basicPoint j = 0 :=
  spread_eq_zero fun i hi => absurd (mem_columns.mpr ⟨i, hi⟩) h

theorem Priced.cost_eq_zero {installed : Equation K (n + m + k)} (h : t.Priced installed)
    {j : Fin (n + m + k)} (hj : j ∈ t.columns) : t.cost.coefficient j = 0 := by
  obtain ⟨i, rfl⟩ := mem_columns.mp hj
  exact h.basic i

variable [LinearOrder K]

/-- What follows from the rows and has no basic column is nothing. -/
theorem Basic.eq_zero_of_mem (h : t.Basic) {v : Option (Fin (n + m + k)) → K}
    (hv : v ∈ t.rowSpace) (hzero : ∀ i, v (some (t.basis.get i)) = 0) : v = 0 := by
  obtain ⟨c, rfl⟩ := Submodule.mem_span_range_iff_exists_fun K |>.mp hv
  refine Finset.sum_eq_zero fun i _ => ?_
  have hc : c i = 0 := by
    have := hzero i
    simpa only [Finset.sum_apply, Pi.smul_apply, Equation.vector_some, h.identity, smul_eq_mul,
      mul_ite, mul_one, mul_zero, Finset.sum_ite_eq', Finset.mem_univ, if_true] using this
  rw [hc, zero_smul]

/-- Two tableaux with the same basic columns have the same costs. -/
theorem Priced.side_eq {installed : Equation K (n + m + k)} (hb : t.Basic)
    (h : t.Priced installed) (h' : t'.Priced installed) (hspace : t'.rowSpace = t.rowSpace)
    (hcolumns : t'.columns = t.columns) : t'.cost.side = t.cost.side := by
  have hmem : t'.cost.vector - t.cost.vector ∈ t.rowSpace := by
    have := Submodule.sub_mem _ h.reduced (hspace ▸ h'.reduced)
    rwa [sub_sub_sub_cancel_left] at this
  have hdiff := hb.eq_zero_of_mem hmem fun i => by
    rw [Pi.sub_apply, Equation.vector_some, Equation.vector_some, h.basic,
      h'.cost_eq_zero (hcolumns ▸ basis_mem_columns i), sub_zero]
  exact sub_eq_zero.mp (congrFun hdiff none)

/-! ### One step -/

variable {firstPhase : Bool} {row : Fin m} {column : Fin (n + m + k)}

/-- Columns before the one that enters cannot be improved. -/
theorem entering?_first (h : t.entering? 0 firstPhase = some column) {j : Fin (n + m + k)}
    (hj : j < column) (heligible : firstPhase = true ∨ isArtificial j = false) :
    0 ≤ t.cost.coefficient j := by
  obtain ⟨-, i, hi, hcolumn, hfirst⟩ := List.find?_eq_some_iff_getElem.mp h
  have hji : j.val < i := by
    rw [← hcolumn, List.getElem_finRange, Fin.lt_def] at hj
    exact hj
  have := hfirst j hji
  simp only [List.getElem_finRange, Fin.cast_mk, Fin.eta, Bool.not_eq_true', Bool.and_eq_false_iff,
    Bool.or_eq_false_iff, Bool.not_eq_false', decide_eq_false_iff_not, neg_zero, not_lt] at this
  rcases this with hno | hcost
  · rcases heligible with he | he
    · rw [he] at hno
      exact absurd hno.1 (by decide)
    · rw [he] at hno
      exact absurd hno.2 (by decide)
  · exact hcost

namespace Step

theorem columns_eq (h : Step firstPhase t t' row column) (hb : t.Basic) :
    t'.columns = insert column (t.columns.erase (t.basis.get row)) := by
  ext j
  rw [h.result, Finset.mem_insert, Finset.mem_erase]
  simp only [mem_columns, basis_pivot]
  constructor
  · intro hj
    obtain ⟨i, hi⟩ := hj
    by_cases hrow : i = row
    · rw [if_pos hrow] at hi
      exact Or.inl hi.symm
    · rw [if_neg hrow] at hi
      exact Or.inr ⟨fun he => hrow (Identity.basis_injective hb.identity (hi.trans he)), i, hi⟩
  · intro hj
    rcases hj with rfl | ⟨hne, i, rfl⟩
    · exact ⟨row, if_pos rfl⟩
    · exact ⟨i, if_neg fun he => hne (by rw [he])⟩

/-- The column that enters was not basic. -/
theorem notMem_columns {installed : Equation K (n + m + k)} (h : Step firstPhase t t' row column)
    (hp : t.Priced installed) : column ∉ t.columns := fun hmem =>
  (entering?_eq_some h.enters).2.ne (hp.cost_eq_zero hmem)

/-- A column becomes basic only by entering. -/
theorem eq_of_notMem (h : Step firstPhase t t' row column) (hb : t.Basic) {j : Fin (n + m + k)}
    (hj : j ∉ t.columns) (hj' : j ∈ t'.columns) : column = j := by
  rw [h.columns_eq hb, Finset.mem_insert, Finset.mem_erase] at hj'
  exact (hj'.resolve_right fun he => hj he.2).symm

/-- A column stops being basic only by leaving. -/
theorem basis_eq_of_mem (h : Step firstPhase t t' row column) (hb : t.Basic)
    {j : Fin (n + m + k)} (hj : j ∈ t.columns) (hj' : j ∉ t'.columns) : t.basis.get row = j := by
  rw [h.columns_eq hb, Finset.mem_insert, Finset.mem_erase] at hj'
  by_contra hne
  exact hj' (Or.inr ⟨fun he => hne he.symm, hj⟩)

variable [IsStrictOrderedRing K]

theorem side_cost (h : Step firstPhase t t' row column) :
    t'.cost.side = t.cost.side - t.cost.coefficient column * t.ratio column row := by
  rw [h.result, ratio, ← side_pivot_row h.ne_zero]
  exact congrFun (pivot_cost h.ne_zero) none

theorem ratio_nonneg (h : Step firstPhase t t' row column) (hb : t.Basic) :
    0 ≤ t.ratio column row := div_nonneg (hb.sides row) h.leaves.positive.le

/-- The negated value never falls. -/
theorem side_cost_le (h : Step firstPhase t t' row column) (hb : t.Basic) :
    t.cost.side ≤ t'.cost.side := by
  rw [h.side_cost]
  have := mul_nonpos_of_nonpos_of_nonneg (entering?_eq_some h.enters).2.le (h.ratio_nonneg hb)
  linarith

/-- A step that leaves the value alone leaves the basic solution alone. -/
theorem basicPoint_eq (h : Step firstPhase t t' row column)
    (hside : t'.cost.side = t.cost.side) : t'.basicPoint = t.basicPoint := by
  have hratio : t.ratio column row = 0 := by
    have := h.side_cost
    rw [hside] at this
    have hzero : t.cost.coefficient column * t.ratio column row = 0 := by linarith
    exact (mul_eq_zero.mp hzero).resolve_left (entering?_eq_some h.enters).2.ne
  have hrow : (t.rows.get row).side = 0 :=
    (div_eq_zero_iff.mp hratio).resolve_right h.ne_zero
  funext j
  simp only [basicPoint, spread, h.result]
  refine Finset.sum_congr rfl fun i _ => ?_
  by_cases hi : i = row
  · -- the row that leaves has the side zero before and after
    rw [hi, side_pivot_row h.ne_zero, hrow, zero_div, ite_self, ite_self]
  · rw [basis_pivot, if_neg hi, side_pivot_other h.ne_zero hi, hrow, zero_div, mul_zero, sub_zero]

end Step

/-! ### Two steps that cannot be in one circle -/

variable [IsStrictOrderedRing K]

/-- **The last column of a circle cannot both enter and leave.**  At `t` the column `q` leaves for
`p`, and at `t'` it enters. -/
theorem not_enters_and_leaves {installed : Equation K (n + m + k)} {u u' : Tableau K n m k}
    {r r' : Fin m} {p q : Fin (n + m + k)} (hb : t.Basic) (hp : t.Priced installed)
    (hp' : t'.Priced installed) (hspace : t'.rowSpace = t.rowSpace)
    (hside : t'.cost.side = t.cost.side) (hs : Step firstPhase t u r p)
    (hs' : Step firstPhase t' u' r' q) (hr : t.basis.get r = q) (hpq : p ≤ q)
    (hchanging : ∀ i, t.basis.get i ∉ t'.columns → t.basis.get i ≤ q ∧
      (t.rows.get i).side = 0 ∧ (firstPhase = true ∨ isArtificial (t.basis.get i) = false)) :
    False := by
  have hcost := (entering?_eq_some hs.enters).2
  have hq := (entering?_eq_some hs'.enters).2
  have hlt : p < q := lt_of_le_of_ne hpq fun he =>
    hs.notMem_columns hp (he ▸ hr ▸ basis_mem_columns r)
  -- one unit of `p` changes the value by its cost at `t`, so it does under the costs of `t'`
  have hgrown : t.Solves (t.grown p 1) := grown_solves hb.identity 1
  have hvalue : t'.cost.eval (t.grown p 1) = t.cost.coefficient p := by
    have h := (hp'.eval_eq ((solves_congr hspace).mpr hgrown)).symm.trans (hp.eval_eq hgrown)
    rw [eval_grown t.cost, eval_cost_spread hp, hside] at h
    linarith
  have hterm : ∀ i, 0 ≤ t'.cost.coefficient (t.basis.get i) *
      ((t.rows.get i).side - (t.rows.get i).coefficient p * 1) := by
    intro i
    by_cases hi : t.basis.get i ∈ t'.columns
    · rw [hp'.cost_eq_zero hi, zero_mul]
    · obtain ⟨hle, hzero, heligible⟩ := hchanging i hi
      rw [hzero, zero_sub, mul_one, mul_neg, ← neg_mul]
      rcases lt_or_eq_of_le hle with hlt | heq
      · -- a lower column than `q` would have left in its place
        have hnonpos : (t.rows.get i).coefficient p ≤ 0 := by
          by_contra hpos
          have hratio : t.ratio p i = 0 := by rw [ratio, hzero, zero_div]
          rcases hs.leaves.least i trivial (not_le.mp hpos) with h | ⟨-, h⟩
          · exact absurd (h.trans_eq hratio) (not_lt.mpr (hs.ratio_nonneg hb))
          · exact absurd (hr ▸ h) (not_le.mpr hlt)
        exact mul_nonneg_of_nonpos_of_nonpos
          (neg_nonpos.mpr (entering?_first hs'.enters hlt heligible)) hnonpos
      · have hir : i = r := Identity.basis_injective hb.identity (heq.trans hr.symm)
        rw [heq, hir]
        exact mul_nonneg (neg_nonneg.mpr hq.le) hs.leaves.positive.le
  have hp0 := entering?_first hs'.enters hlt (entering?_eq_some hs.enters).1
  have hsum : 0 ≤ t'.cost.eval (t.grown p 1) := by
    rw [eval_grown, eval_spread]
    exact add_nonneg (by rwa [mul_one]) (Finset.sum_nonneg fun i _ => hterm i)
  rw [hvalue] at hsum
  exact absurd hsum (not_le.mpr hcost)

/-! ### Circles -/

/-- Tableaux of which each comes from the one before by a step. -/
structure Stretch (firstPhase : Bool) (installed : Equation K (n + m + k)) (length : Nat)
    (t : Nat → Tableau K n m k) : Prop where
  basic : (t 0).Basic
  priced : (t 0).Priced installed
  steps : ∀ i < length, ∃ row column, Step firstPhase (t i) (t (i + 1)) row column

/-- What every step keeps up to some point is kept from any earlier point on. -/
theorem kept_between {P : Nat → Prop} {length : Nat} (h : ∀ i < length, P i → P (i + 1)) {a b : Nat}
    (hab : a ≤ b) (hb : b ≤ length) (ha : P a) : P b := by
  induction b, hab using Nat.le_induction with
  | base => exact ha
  | succ b _ ih => exact h b (by omega) (ih (by omega))

namespace Stretch

variable {installed : Equation K (n + m + k)} {length : Nat} {t : Nat → Tableau K n m k}

/-- Every tableau of a stretch is basic and priced, over the same rows. -/
theorem valid (h : Stretch firstPhase installed length t) {i : Nat} (hi : i ≤ length) :
    (t i).Basic ∧ (t i).Priced installed ∧ (t i).rowSpace = (t 0).rowSpace := by
  refine kept_between (P := fun i => (t i).Basic ∧ (t i).Priced installed ∧
    (t i).rowSpace = (t 0).rowSpace) (fun i hi hv => ?_) (Nat.zero_le i) hi ⟨h.basic, h.priced, rfl⟩
  obtain ⟨row, column, hs⟩ := h.steps i hi
  exact ⟨hs.basic hv.1, hs.priced hv.1 hv.2.1, hs.rowSpace_eq.trans hv.2.2⟩

theorem side_cost_le (h : Stretch firstPhase installed length t) {a b : Nat} (hab : a ≤ b)
    (hb : b ≤ length) : (t a).cost.side ≤ (t b).cost.side := by
  refine kept_between (P := fun i => (t a).cost.side ≤ (t i).cost.side) (fun i hi hle => ?_)
    hab hb (le_refl _)
  obtain ⟨row, column, hs⟩ := h.steps i hi
  exact hle.trans (hs.side_cost_le (h.valid hi.le).1)

variable (h : Stretch firstPhase installed length t) (hcircle : (t length).columns = (t 0).columns)

include h hcircle

/-- Around a circle the value stays the same. -/
theorem side_cost_eq {i : Nat} (hi : i ≤ length) : (t i).cost.side = (t 0).cost.side := by
  obtain ⟨-, hpriced, hspace⟩ := h.valid (le_refl length)
  have hends := h.priced.side_eq h.basic hpriced hspace hcircle
  have hlow := h.side_cost_le (Nat.zero_le i) hi
  have hhigh := h.side_cost_le hi (le_refl length)
  exact le_antisymm (hhigh.trans_eq hends) hlow

/-- Around a circle the basic solution stays the same. -/
theorem basicPoint_eq {i : Nat} (hi : i ≤ length) : (t i).basicPoint = (t 0).basicPoint := by
  refine kept_between (P := fun i => (t i).basicPoint = (t 0).basicPoint) (fun i hi hpoint => ?_)
    (Nat.zero_le i) hi rfl
  obtain ⟨row, column, hs⟩ := h.steps i hi
  refine (hs.basicPoint_eq ?_).trans hpoint
  rw [h.side_cost_eq hcircle hi, h.side_cost_eq hcircle hi.le]

/-- A column that is basic at one tableau of a circle and not at another enters somewhere. -/
theorem exists_enters {a b : Nat} (ha : a ≤ length) (hb : b ≤ length) {j : Fin (n + m + k)}
    (hmem : j ∈ (t a).columns) (hno : j ∉ (t b).columns) :
    ∃ i < length, ∃ row, Step firstPhase (t i) (t (i + 1)) row j := by
  by_contra hnever
  -- then a column that is not basic stays so, to the end of the circle and on from its start
  have hkept : ∀ i < length, j ∉ (t i).columns → j ∉ (t (i + 1)).columns := by
    intro i hi hout hin
    obtain ⟨row, column, hs⟩ := h.steps i hi
    have heq := hs.eq_of_notMem (h.valid hi.le).1 hout hin
    exact hnever ⟨i, hi, row, heq ▸ hs⟩
  have hend := kept_between hkept hb (le_refl length) hno
  rw [hcircle] at hend
  exact kept_between hkept (Nat.zero_le a) ha hend hmem

/-- ... and leaves somewhere. -/
theorem exists_leaves {a b : Nat} (ha : a ≤ length) (hb : b ≤ length) {j : Fin (n + m + k)}
    (hmem : j ∈ (t a).columns) (hno : j ∉ (t b).columns) :
    ∃ i < length, ∃ row column, Step firstPhase (t i) (t (i + 1)) row column ∧
      (t i).basis.get row = j := by
  by_contra hnever
  have hkept : ∀ i < length, j ∈ (t i).columns → j ∈ (t (i + 1)).columns := by
    intro i hi hin
    by_contra hout
    obtain ⟨row, column, hs⟩ := h.steps i hi
    exact hnever ⟨i, hi, row, column, hs, hs.basis_eq_of_mem (h.valid hi.le).1 hin hout⟩
  have hend := kept_between hkept ha (le_refl length) hmem
  rw [hcircle] at hend
  exact hno (kept_between hkept (Nat.zero_le b) hb hend)

omit hcircle in
/-- **No stretch of steps is a circle.** -/
theorem columns_ne (hpos : 0 < length) : (t length).columns ≠ (t 0).columns := by
  classical
  intro hcircle
  -- the last of the columns that enter
  let entering : Finset (Fin (n + m + k)) := Finset.univ.filter fun j =>
    ∃ i < length, ∃ row, Step firstPhase (t i) (t (i + 1)) row j
  have hmem : ∀ {i row j}, i < length → Step firstPhase (t i) (t (i + 1)) row j →
      j ∈ entering := fun hi hs => Finset.mem_filter.mpr ⟨Finset.mem_univ _, _, hi, _, hs⟩
  obtain ⟨row₀, column₀, hs₀⟩ := h.steps 0 hpos
  obtain ⟨q, hq, hlast⟩ := entering.exists_max_image id ⟨column₀, hmem hpos hs₀⟩
  obtain ⟨b, hb, r', hs'⟩ := (Finset.mem_filter.mp hq).2
  obtain ⟨hbasic', hpriced', hspace'⟩ := h.valid hb.le
  have hin : q ∈ (t (b + 1)).columns := by
    rw [hs'.columns_eq hbasic']
    exact Finset.mem_insert_self _ _
  obtain ⟨a, ha, r, p, hs, hr⟩ :=
    h.exists_leaves hcircle hb hb.le hin (hs'.notMem_columns hpriced')
  obtain ⟨hbasic, hpriced, hspace⟩ := h.valid ha.le
  refine not_enters_and_leaves hbasic hpriced hpriced' (hspace'.trans hspace.symm) ?_ hs hs' hr
    (hlast p (hmem ha hs)) fun i hi => ?_
  · rw [h.side_cost_eq hcircle hb.le, h.side_cost_eq hcircle ha.le]
  · -- a column that is basic at one tableau only enters somewhere, and is zero there
    obtain ⟨c, hc, row, hsc⟩ := h.exists_enters hcircle ha.le hb.le (basis_mem_columns i) hi
    refine ⟨hlast _ (hmem hc hsc), ?_, (entering?_eq_some hsc.enters).1⟩
    have hzero := basicPoint_eq_zero (hsc.notMem_columns (h.valid hc.le).2.1)
    rw [h.basicPoint_eq hcircle hc.le, ← h.basicPoint_eq hcircle ha.le] at hzero
    rw [← hzero]
    exact (spread_basis hbasic.identity (fun i => ((t a).rows.get i).side) i).symm

end Stretch

end MarkovPlanning.Linear.Tableau
