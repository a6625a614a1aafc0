/-
The pivots of a search.

A search is known by its pivots, in order, each with the tableau that it is made in
(`exchanges`, `drivings`).  They form a chain, and what every pivot of a chain keeps holds
at its end (`Chained.foldl`, `Chained.keeps`).  The trail of a line is kept that way
(`Chained.leads`).

With a tolerance, not all that is said of the pivots of an exact search is true of them.
The ratio test takes ratios for equal that differ by the tolerance, so the ratio that is
chosen may exceed the least one, though by no more than the tolerance for every row looked
at (`leaving?_near`).
-/
import MarkovPlanning.Proofs.Linear.Rounding
import MarkovPlanning.Proofs.Linear.Maximize
import Mathlib

namespace MarkovPlanning.Linear

variable {K : Type} [Field K] [LinearOrder K] {n m k : Nat}

namespace Tableau

variable {t : Tableau K n m k} {eps : K} {column : Fin (n + m + k)} {firstPhase : Bool}

/-! ### The ratio test -/

/-- What a search among some rows has to answer: a row whose ratio exceeds no other by more than
some slack. -/
def FoundNear (t : Tableau K n m k) (eps : K) (column : Fin (n + m + k)) (among : Fin m → Prop)
    (slack : K) : Option (Fin m × K) → Prop
  | none => ∀ i, among i → (t.rows.get i).coefficient column ≤ eps
  | some best => eps < (t.rows.get best.1).coefficient column ∧
      best.2 = t.ratio column best.1 ∧
      ∀ i, among i → eps < (t.rows.get i).coefficient column → best.2 ≤ t.ratio column i + slack

variable [IsStrictOrderedRing K]

/-- A row that precedes the best one is worse by at most the tolerance. -/
private theorem le_of_precedes (heps : 0 ≤ eps) {row best : Fin m} {r s : K}
    (h : t.precedes eps row best r s = true) : r ≤ s + eps := by
  simp only [precedes, Scalar.abs_eq, Bool.or_eq_true, Bool.and_eq_true, decide_eq_true_eq] at h
  rcases h with h | ⟨h, -⟩
  · linarith
  · linarith [le_of_abs_le h]

/-- So is the best one, if a row does not precede it. -/
private theorem le_of_not_precedes {row best : Fin m} {r s : K}
    (h : ¬t.precedes eps row best r s = true) : s ≤ r + eps := by
  simp only [precedes, Bool.or_eq_true, decide_eq_true_eq, not_or, not_lt] at h
  linarith [h.1]

private theorem tryRow_near (heps : 0 ≤ eps) {among : Fin m → Prop} {slack : K}
    (hslack : 0 ≤ slack) {best : Option (Fin m × K)} (h : t.FoundNear eps column among slack best)
    (row : Fin m) :
    t.FoundNear eps column (fun i => i = row ∨ among i) (slack + eps)
      (t.tryRow eps column best row) := by
  unfold tryRow
  by_cases hrow : eps < (t.rows.get row).coefficient column
  · rw [if_pos hrow]
    cases best with
    | none =>
        refine ⟨hrow, rfl, ?_⟩
        intro i hi hlarge
        rcases hi with rfl | hi
        · linarith
        · exact absurd (h i hi) (not_le.mpr hlarge)
    | some best =>
        obtain ⟨hlarge, hratio, hleast⟩ := h
        by_cases hp : t.precedes eps row best.1 (t.ratio column row) best.2 = true
        · -- the new ratio may exceed the old one, by the tolerance
          have hnear := le_of_precedes heps hp
          simp only [hp, if_true]
          refine ⟨hrow, rfl, ?_⟩
          intro i hi hlarge
          rcases hi with rfl | hi
          · linarith
          · linarith [hleast i hi hlarge]
        · have hnear := le_of_not_precedes hp
          simp only [hp]
          refine ⟨hlarge, hratio, ?_⟩
          intro i hi hlarge
          rcases hi with rfl | hi
          · linarith
          · linarith [hleast i hi hlarge]
  · rw [if_neg hrow]
    cases best with
    | none =>
        intro i hi
        rcases hi with rfl | hi
        · exact not_lt.mp hrow
        · exact h i hi
    | some best =>
        refine ⟨h.1, h.2.1, ?_⟩
        intro i hi hlarge
        rcases hi with rfl | hi
        · exact absurd hlarge hrow
        · linarith [h.2.2 i hi hlarge]

private theorem foldl_near (heps : 0 ≤ eps) : ∀ (l : List (Fin m)) {among : Fin m → Prop}
    {slack : K} {best : Option (Fin m × K)}, 0 ≤ slack → t.FoundNear eps column among slack best →
      t.FoundNear eps column (fun i => i ∈ l ∨ among i) (slack + l.length * eps)
        (l.foldl (t.tryRow eps column) best) := by
  intro l
  induction l with
  | nil => intro among slack best _ h; simpa using h
  | cons row rest ih =>
      intro among slack best hslack h
      have := ih (add_nonneg hslack heps) (tryRow_near heps hslack h row)
      rw [List.length_cons, Nat.cast_succ, add_mul, one_mul, add_comm _ eps, ← add_assoc]
      simpa only [List.foldl_cons, List.mem_cons, or_assoc, or_left_comm] using this

/-- **The ratio test finds the least ratio but for the tolerance per row.** -/
theorem leaving?_near (heps : 0 ≤ eps) :
    t.FoundNear eps column (fun _ => True) (m * eps) (t.leaving? eps column) := by
  rw [leaving?_eq]
  have hnone : t.FoundNear eps column (fun _ => False) 0 none := fun i hi => hi.elim
  simpa using foldl_near heps (List.finRange m) (le_refl 0) hnone

/-! ### The pivots of a search -/

omit [IsStrictOrderedRing K] in
theorem isArtificial_of_entering? (h : t.entering? eps firstPhase = some column) :
    firstPhase = true ∨ isArtificial column = false := by
  have := List.find?_some h
  simp only [Bool.and_eq_true, Bool.or_eq_true, Bool.not_eq_true', decide_eq_true_eq] at this
  exact this.1

end Tableau

open Tableau

/-- A pivot that the rules ask for, tolerance and all. -/
structure Exchange.Chosen (exchange : Exchange K n m k) (eps : K) (firstPhase : Bool) : Prop where
  enters : firstPhase = true ∨ isArtificial exchange.column = false
  large : eps < exchange.entry (some exchange.row)
  least : ∀ i, eps < exchange.entry (some i) →
    exchange.before.ratio exchange.column exchange.row
      ≤ exchange.before.ratio exchange.column i + m * eps

/-- A pivot that drives an artificial variable out. -/
structure Exchange.Drives (exchange : Exchange K n m k) (eps : K) : Prop where
  leaves : isArtificial (exchange.before.basis.get exchange.row) = true
  enters : isArtificial exchange.column = false
  large : eps < |exchange.entry (some exchange.row)|

/-- Pivots that lead from one tableau to another. -/
inductive Chained (eps : K) : Tableau K n m k → List (Exchange K n m k) → Tableau K n m k → Prop
  | nil (t : Tableau K n m k) : Chained eps t [] t
  | cons (exchange : Exchange K n m k) {rest : List (Exchange K n m k)} {last : Tableau K n m k} :
      Chained eps (exchange.after eps) rest last →
      Chained eps exchange.before (exchange :: rest) last

/-- **What every pivot of a chain keeps holds at its end.** -/
theorem Chained.foldl {eps : K} {σ : Type} (update : σ → Exchange K n m k → σ)
    {P : σ → Tableau K n m k → Prop} {first last : Tableau K n m k} {l : List (Exchange K n m k)}
    (h : Chained eps first l last)
    (hstep : ∀ s, ∀ exchange ∈ l, P s exchange.before → P (update s exchange) (exchange.after eps))
    {s : σ} (hs : P s first) : P (l.foldl update s) last := by
  induction h generalizing s with
  | nil t => exact hs
  | @cons exchange rest last _ ih =>
      exact ih (fun s other hother => hstep s other (List.mem_cons_of_mem _ hother))
        (hstep s exchange List.mem_cons_self hs)

theorem Chained.keeps {eps : K} {P : Tableau K n m k → Prop} {first last : Tableau K n m k}
    {l : List (Exchange K n m k)} (h : Chained eps first l last)
    (hstep : ∀ exchange ∈ l, P exchange.before → P (exchange.after eps)) (hfirst : P first) :
    P last :=
  h.foldl (fun _ _ => ()) (P := fun _ t => P t) (fun _ => hstep) (s := ()) hfirst

namespace Tableau

/-- The next pivot of a phase. -/
def next? (t : Tableau K n m k) (eps : K) (firstPhase : Bool) : Option (Exchange K n m k) :=
  match t.entering? eps firstPhase with
  | none => none
  | some column => (t.leaving? eps column).map fun best => ⟨t, best.1, column⟩

/-- The pivots of a phase. -/
def exchanges (eps : K) (firstPhase : Bool) :
    (pivots : Nat) → Tableau K n m k → List (Exchange K n m k)
  | 0, _ => []
  | pivots + 1, tableau =>
    match tableau.next? eps firstPhase with
    | none => []
    | some exchange => exchange :: exchanges eps firstPhase pivots (exchange.after eps)

/-- The pivots that drive artificial variables out of some rows. -/
def drivings (eps : K) : List (Fin m) → Tableau K n m k → List (Exchange K n m k)
  | [], _ => []
  | row :: rest, tableau =>
    match tableau.replacement? eps row with
    | none => drivings eps rest tableau
    | some column => ⟨tableau, row, column⟩ :: drivings eps rest (tableau.pivot eps row column)

variable {t : Tableau K n m k} {eps : K} {firstPhase : Bool}

theorem chained_drivings (eps : K) : ∀ (l : List (Fin m)) (t : Tableau K n m k),
    Chained eps t (drivings eps l t) (l.foldl (fun t row => t.driveRow eps row) t) := by
  intro l
  induction l with
  | nil => exact .nil
  | cons row rest ih =>
      intro t
      rw [List.foldl_cons, driveRow, drivings]
      cases t.replacement? eps row with
      | none => exact ih t
      | some column => exact .cons ⟨t, row, column⟩ (ih _)

/-- A phase makes one pivot after the other, and stops where there is no next one. -/
theorem chained_exchanges : ∀ (pivots : Nat) (t : Tableau K n m k),
    Chained eps t (exchanges eps firstPhase pivots t) (run eps firstPhase pivots t).2.1 := by
  intro pivots
  induction pivots with
  | zero =>
      intro t
      unfold run exchanges
      cases t.entering? eps firstPhase <;> exact .nil t
  | succ pivots ih =>
      intro t
      unfold run exchanges next?
      cases t.entering? eps firstPhase with
      | none => exact .nil t
      | some column =>
          dsimp only
          cases t.leaving? eps column with
          | none => exact .nil t
          | some best => exact .cons ⟨t, best.1, column⟩ (ih _)

variable [IsStrictOrderedRing K]

theorem drives_of_mem_drivings {exchange : Exchange K n m k} : ∀ {l : List (Fin m)}
    {t : Tableau K n m k}, exchange ∈ drivings eps l t → exchange.Drives eps := by
  intro l
  induction l with
  | nil => intro t h; cases h
  | cons row rest ih =>
      intro t h
      rw [drivings] at h
      cases hreplace : t.replacement? eps row with
      | none => rw [hreplace] at h; exact ih h
      | some column =>
          rw [hreplace] at h
          rcases List.mem_cons.mp h with rfl | h
          · obtain ⟨hleaves, henters, hlarge⟩ := replacement?_eq_some hreplace
            exact ⟨hleaves, henters, hlarge⟩
          · exact ih h

theorem chosen_of_next? (h0 : 0 ≤ eps) {exchange : Exchange K n m k}
    (h : t.next? eps firstPhase = some exchange) : exchange.Chosen eps firstPhase := by
  unfold next? at h
  cases henters : t.entering? eps firstPhase with
  | none => rw [henters] at h; cases h
  | some column =>
      have hfound : t.FoundNear eps column (fun _ => True) (m * eps) (t.leaving? eps column) :=
        leaving?_near h0
      cases hleaves : t.leaving? eps column with
      | none => rw [henters] at h; simp only [hleaves, Option.map_none] at h; cases h
      | some best =>
          rw [henters] at h
          simp only [hleaves, Option.map_some, Option.some.injEq] at h
          rw [hleaves] at hfound
          obtain ⟨hlarge, hratio, hleast⟩ := hfound
          subst h
          exact ⟨isArtificial_of_entering? henters, hlarge,
            fun i hi => hratio ▸ hleast i trivial hi⟩

theorem chosen_of_mem_exchanges (h0 : 0 ≤ eps) {exchange : Exchange K n m k} :
    ∀ {pivots : Nat} {t : Tableau K n m k}, exchange ∈ exchanges eps firstPhase pivots t →
      exchange.Chosen eps firstPhase := by
  intro pivots
  induction pivots with
  | zero => intro t h; cases h
  | succ pivots ih =>
      intro t h
      rw [exchanges] at h
      cases hnext : t.next? eps firstPhase with
      | none => rw [hnext] at h; cases h
      | some next =>
          rw [hnext] at h
          rcases List.mem_cons.mp h with rfl | h
          · exact chosen_of_next? h0 hnext
          · exact ih h

end Tableau

/-! ### What is kept along a chain -/

section
variable {first last : Tableau K n m k} {l : List (Exchange K n m k)} {eps : K}
  {trail : Trail K n m k} {source : Option (Fin (n + m + k)) → K}

/-- The share of the costs in a line does not change. -/
theorem Trail.shares_foldl_none (eps : K) (l : List (Exchange K n m k)) (trail : Trail K n m k) :
    (l.foldl (Trail.follow eps) trail).shares none = trail.shares none := by
  induction l generalizing trail with
  | nil => rfl
  | cons exchange rest ih =>
      rw [List.foldl_cons, ih, shares_follow, if_neg (Option.some_ne_none _).symm]

/-- Installing costs does not matter to a line that they have no share in. -/
theorem Trail.Leads.withCost {t : Tableau K n m k} (h : trail.Leads source t)
    (hnone : trail.shares none = 0) (eps : K) (cost : Equation K (n + m + k)) :
    trail.Leads source (t.withCost eps cost) := by
  obtain ⟨error, hsource, herror⟩ := h
  refine ⟨error, ?_, herror⟩
  rw [hsource, Fintype.sum_option, Fintype.sum_option, hnone, zero_smul, zero_smul]
  rfl

variable [IsStrictOrderedRing K]

/-- **A trail along a chain of pivots leads to its end.** -/
theorem Chained.leads (h : Chained eps first l last) (hleads : trail.Leads source first) :
    (l.foldl (Trail.follow eps) trail).Leads source last :=
  h.foldl _ (P := fun trail t => Trail.Leads trail source t) (fun _ _ _ h => h.follow) hleads

/-- A chain that loses nothing leaves nothing out of a trail. -/
theorem Trail.drops_foldl_eq_zero (h : ∀ exchange ∈ l, ∀ l j, exchange.lost eps l j = 0)
    (hdrops : trail.drops = 0) : (l.foldl (Trail.follow eps) trail).drops = 0 := by
  induction l generalizing trail with
  | nil => exact hdrops
  | cons exchange rest ih =>
      refine ih (fun other hother => h other (List.mem_cons_of_mem _ hother)) ?_
      exact (drops_follow_of_lost_eq_zero (h exchange List.mem_cons_self)).trans hdrops

/-- A pivot leaves no cost in the basic columns. -/
theorem Exchange.cost_basis_after {exchange : Exchange K n m k}
    (hidentity : exchange.before.Identity)
    (h : ∀ i, exchange.before.cost.coefficient (exchange.before.basis.get i) = 0) (i : Fin m) :
    (exchange.after eps).cost.coefficient ((exchange.after eps).basis.get i) = 0 := by
  rw [Exchange.after, basis_pivot]
  by_cases hi : i = exchange.row
  · rw [if_pos hi]
    exact (coefficient_clear ..).trans (if_pos rfl)
  · -- the column is cleared, and the others are zero in the pivot row
    have hrow : (exchange.before.rows.get exchange.row).coefficient
        (exchange.before.basis.get i) = 0 :=
      (hidentity exchange.row i).trans (if_neg (Ne.symm hi))
    rw [if_neg hi]
    refine (coefficient_clear ..).trans ?_
    rw [h, Equation.coefficient_map, hrow, zero_mul, settle_of_zero, mul_zero, sub_zero,
      settle_of_zero, ite_self, ite_self]

end

end MarkovPlanning.Linear
