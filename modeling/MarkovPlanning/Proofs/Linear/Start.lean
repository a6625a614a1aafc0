/-
The first tableau of a program.

A point meets the constraints exactly when slack variables turn them into equations
without anything being negative.  The first tableau holds these equations, each with
its sign turned if its side would be negative otherwise; such an equation also has an
artificial variable, which has to be zero for the equation to mean its constraint.
So the feasible points are the solutions of the first tableau that are nowhere
negative and zero at the artificial variables, which is what `solves_complete` and
`feasible_of_solves` say.

The first tableau is a basic one (`ofProgram_basic`), and a row of costs can be
installed in any basic tableau (`withCost_priced`).
-/
import MarkovPlanning.Proofs.Linear.Point
import Mathlib

namespace MarkovPlanning.Linear

variable {K : Type} [Field K]

theorem dot_ofFn [LinearOrder K] : ∀ {n : Nat} (xs : List K) (x : Fin n → K),
    Scalar.dot xs (List.ofFn x) = ∑ j, (xs[j.val]?).getD 0 * x j := by
  intro n
  induction n with
  | zero => intro xs x; simp
  | succ n ih =>
      intro xs x
      rw [List.ofFn_succ, Fin.sum_univ_succ]
      cases xs with
      | nil => simp
      | cons y ys =>
          rw [Scalar.dot_cons, ih]
          simp

/-- The points a program allows: no variable is negative and no constraint is exceeded. -/
structure Program.Feasible [LinearOrder K] (program : Program K) (x : List K) : Prop where
  length : x.length = program.objective.length
  nonneg : ∀ v ∈ x, 0 ≤ v
  bounds : ∀ constraint ∈ program.constraints,
    Scalar.dot constraint.coefficients x ≤ constraint.bound

namespace Tableau

variable {n m k : Nat}

/-! ### Columns by kind -/

/-- The column of a variable of the program. -/
def original (j : Fin n) : Fin (n + m + k) := Fin.castAdd k (Fin.castAdd m j)

/-- The column of the slack variable of a row. -/
def slack (i : Fin m) : Fin (n + m + k) := Fin.castAdd k (Fin.natAdd n i)

/-- The columns of the artificial variables. -/
def artificial (a : Fin k) : Fin (n + m + k) := Fin.natAdd (n + m) a

theorem isArtificial_iff {j : Fin (n + m + k)} : isArtificial j = true ↔ n + m ≤ j.val := by
  simp [isArtificial]

theorem isArtificial_slack (i : Fin m) : isArtificial (slack i : Fin (n + m + k)) = false := by
  have := i.isLt
  rw [← Bool.not_eq_true, isArtificial_iff]
  simp only [slack, Fin.val_castAdd, Fin.val_natAdd]
  omega

/-- A sum over all columns, by kind. -/
theorem sum_columns (f : Fin (n + m + k) → K) :
    ∑ j, f j = ∑ j, f (original j) + ∑ i, f (slack i) + ∑ a, f (artificial a) := by
  rw [Fin.sum_univ_add, Fin.sum_univ_add]
  rfl

/-- The values of the variables of the program at a point of the tableau. -/
def originals (y : Fin (n + m + k) → K) : List K := List.ofFn fun j => y (original j)

/-! ### The rows of the first tableau -/

variable {program : Program K}

/-- The sign that the equation of a row is given. -/
def sign [LinearOrder K] (program : Program K) (i : Fin program.constraints.length) : K :=
  if isNegated (program.constraints.get i).bound then -1 else 1

/-- The coefficients of a constraint and of its slack variable. -/
def augmented (program : Program K) (i : Fin program.constraints.length) {k : Nat}
    (j : Fin (program.objective.length + program.constraints.length + k)) : K :=
  if j.val < program.objective.length then
    ((program.constraints.get i).coefficients[j.val]?).getD 0
  else if j.val = program.objective.length + i then 1 else 0

theorem augmented_of_isArtificial {i : Fin program.constraints.length} {k : Nat}
    {j : Fin (program.objective.length + program.constraints.length + k)}
    (h : isArtificial j = true) : augmented program i j = 0 := by
  have := isArtificial_iff.mp h
  unfold augmented
  rw [if_neg (by omega), if_neg (by omega)]

/-- A slack variable belongs to its own constraint only. -/
theorem augmented_slack (i i' : Fin program.constraints.length) {k : Nat} :
    augmented program i (slack i' : Fin (_ + _ + k)) = if i = i' then 1 else 0 := by
  have hval : (slack i' : Fin (program.objective.length + _ + k)).val
      = program.objective.length + i' := rfl
  unfold augmented
  rw [hval, if_neg (by omega)]
  by_cases hi : i = i'
  · rw [if_pos hi, if_pos (by rw [hi])]
  · rw [if_neg hi, if_neg fun he => hi (Fin.ext (by omega))]

variable [LinearOrder K]

theorem isArtificial_artificialColumn {i : Fin program.constraints.length}
    (h : isNegated (program.constraints.get i).bound = true) :
    isArtificial (artificialColumn program i h) = true := by
  rw [isArtificial_iff]
  exact Nat.le_add_right _ _

/-- Artificial columns are handed out one by one: a later row has a later column. -/
theorem artificialColumn_injective {i i' : Fin program.constraints.length}
    (h : isNegated (program.constraints.get i).bound = true)
    (h' : isNegated (program.constraints.get i').bound = true)
    (he : artificialColumn program i h = artificialColumn program i' h') : i = i' := by
  have key : ∀ a b : Fin program.constraints.length,
      isNegated (program.constraints.get a).bound = true → a < b →
        (program.constraints.take a).countP (fun c => isNegated c.bound)
          < (program.constraints.take b).countP (fun c => isNegated c.bound) := by
    intro a b ha hab
    have hlen : a.val < (program.constraints.take b).length := by
      rw [List.length_take]
      omega
    have := countP_take_lt (p := fun c : Constraint K => isNegated c.bound) hlen
      (by simpa using ha)
    rwa [List.take_take, min_eq_left (by omega : a.val ≤ b.val)] at this
  have hcount : (program.constraints.take i).countP (fun c => isNegated c.bound)
      = (program.constraints.take i').countP (fun c => isNegated c.bound) := by
    have := congrArg Fin.val he
    simp only [artificialColumn] at this
    omega
  rcases lt_trichotomy i i' with hlt | heq | hlt
  · exact absurd hcount (key i i' h hlt).ne
  · exact heq
  · exact absurd hcount (key i' i h' hlt).ne'

theorem coefficient_ofProgram (i : Fin program.constraints.length)
    (j : Fin (program.objective.length + program.constraints.length + artificials program)) :
    ((ofProgram program).rows.get i).coefficient j = sign program i * augmented program i j +
      if h : isNegated (program.constraints.get i).bound = true then
        if j = artificialColumn program i h then 1 else 0
      else 0 := by
  have hrow : (if j.val < program.objective.length then
        (((program.constraints.get i).coefficients[j.val]?).map (sign program i * ·)).getD 0
      else if j.val = program.objective.length + i then sign program i else 0)
      = sign program i * augmented program i j := by
    unfold augmented
    split
    · cases (program.constraints.get i).coefficients[j.val]? <;> simp
    · split <;> simp
  simp only [ofProgram, Vector.get_ofFn]
  by_cases h : isNegated (program.constraints.get i).bound = true
  · rw [dif_pos h, dif_pos h, Equation.coefficient_set, Equation.coefficient_ofFn]
    by_cases hj : j = artificialColumn program i h
    · rw [if_pos hj, if_pos hj, hj, augmented_of_isArtificial (isArtificial_artificialColumn h),
        mul_zero, zero_add]
    · rw [if_neg hj, if_neg hj, add_zero]
      exact hrow
  · rw [dif_neg h, dif_neg h, Equation.coefficient_ofFn, add_zero]
    exact hrow

/-- A slack variable occurs in its own row only. -/
theorem coefficient_ofProgram_slack (i i' : Fin program.constraints.length) :
    ((ofProgram program).rows.get i).coefficient (slack i')
      = if i = i' then sign program i else 0 := by
  have hcolumn (h : isNegated (program.constraints.get i).bound = true) :
      slack i' ≠ artificialColumn program i h := by
    intro he
    have hart := isArtificial_artificialColumn h
    rw [← he, isArtificial_slack] at hart
    exact Bool.noConfusion hart
  rw [coefficient_ofProgram, augmented_slack, mul_ite, mul_one, mul_zero]
  by_cases h : isNegated (program.constraints.get i).bound = true
  · rw [dif_pos h, if_neg (hcolumn h), add_zero]
  · rw [dif_neg h, add_zero]

theorem side_ofProgram (i : Fin program.constraints.length) :
    ((ofProgram program).rows.get i).side
      = sign program i * (program.constraints.get i).bound := by
  simp only [ofProgram, Vector.get_ofFn]
  by_cases h : isNegated (program.constraints.get i).bound = true
  · rw [dif_pos h]
    rfl
  · rw [dif_neg h]
    rfl

theorem basis_ofProgram (i : Fin program.constraints.length) :
    (ofProgram program).basis.get i =
      if h : isNegated (program.constraints.get i).bound = true then artificialColumn program i h
      else slack i := by
  simp only [ofProgram, Vector.get_ofFn]
  rfl

/-- The left side of a row: that of the constraint with its slack variable, and the artificial
variable of a turned equation. -/
theorem eval_ofProgram (i : Fin program.constraints.length)
    (y : Fin (program.objective.length + program.constraints.length + artificials program) → K) :
    ((ofProgram program).rows.get i).eval y
      = sign program i * (Scalar.dot (program.constraints.get i).coefficients (originals y)
          + y (slack i)) +
        if h : isNegated (program.constraints.get i).bound = true then
          y (artificialColumn program i h)
        else 0 := by
  have haugmented : ∑ j, augmented program i j * y j
      = Scalar.dot (program.constraints.get i).coefficients (originals y) + y (slack i) := by
    rw [sum_columns, originals, dot_ofFn]
    have horiginal : ∀ j, augmented program i (original j : Fin (_ + _ + artificials program))
        = ((program.constraints.get i).coefficients[j.val]?).getD 0 := fun j => if_pos j.isLt
    have hartificial : ∀ a : Fin (artificials program), augmented program i (artificial a) = 0 :=
      fun a => augmented_of_isArtificial (isArtificial_iff.mpr (Nat.le_add_right _ _))
    simp only [horiginal, augmented_slack, hartificial, ite_mul, one_mul, zero_mul,
      Finset.sum_ite_eq, Finset.mem_univ, if_true, Finset.sum_const_zero, add_zero]
  rw [← haugmented, Finset.mul_sum]
  unfold Equation.eval
  by_cases h : isNegated (program.constraints.get i).bound = true
  · simp only [coefficient_ofProgram, dif_pos h, add_mul, Finset.sum_add_distrib, ite_mul, one_mul,
      zero_mul, Finset.sum_ite_eq', Finset.mem_univ, if_true, mul_assoc]
  · simp only [coefficient_ofProgram, dif_neg h, add_zero, mul_assoc]

/-! ### Feasible points as solutions -/

/-- Solutions that a point of the program corresponds to: nothing negative, nothing artificial. -/
structure Proper (y : Fin (n + m + k) → K) : Prop where
  nonneg : ∀ j, 0 ≤ y j
  artificial : ∀ j, isArtificial j = true → y j = 0

theorem eval_ofProgram_proper (i : Fin program.constraints.length)
    {y : Fin (program.objective.length + program.constraints.length + artificials program) → K}
    (hy : Proper y) :
    ((ofProgram program).rows.get i).eval y
      = sign program i * (Scalar.dot (program.constraints.get i).coefficients (originals y)
          + y (slack i)) := by
  rw [eval_ofProgram]
  by_cases h : isNegated (program.constraints.get i).bound = true
  · rw [dif_pos h, hy.artificial _ (isArtificial_artificialColumn h), add_zero]
  · rw [dif_neg h, add_zero]

variable [IsStrictOrderedRing K]

theorem sign_ne_zero (i : Fin program.constraints.length) : sign program i ≠ 0 := by
  unfold sign
  split
  · exact neg_ne_zero.mpr one_ne_zero
  · exact one_ne_zero

/-- **Feasible points solve the first tableau**, with their slack. -/
theorem solves_complete {x : List K} (h : program.Feasible x) :
    ∃ y, originals y = x ∧ Proper y ∧ (ofProgram program).Solves y := by
  obtain ⟨f, rfl⟩ : ∃ f : Fin program.objective.length → K, x = List.ofFn f :=
    ⟨fun j => x.get (j.cast h.length.symm), by
      refine List.ext_getElem (by rw [List.length_ofFn, h.length]) fun j _ _ => ?_
      simp⟩
  set left : Fin program.constraints.length → K := fun i =>
    (program.constraints.get i).bound
      - Scalar.dot (program.constraints.get i).coefficients (List.ofFn f)
  have hleft : ∀ i, 0 ≤ left i := fun i => sub_nonneg.mpr (h.bounds _ (List.get_mem _ i))
  set y : Fin (program.objective.length + program.constraints.length + artificials program) → K :=
    Fin.append (Fin.append f left) fun _ => 0
  have horiginals : originals y = List.ofFn f := by
    refine congrArg List.ofFn (funext fun j => ?_)
    simp only [y, original, Fin.append_left]
  have hproper : Proper y := by
    constructor
    · intro j
      refine Fin.addCases (fun j => ?_) (fun a => ?_) j
      · refine Fin.addCases (fun j => ?_) (fun i => ?_) j
        · simp only [y, Fin.append_left]
          exact h.nonneg _ (List.mem_ofFn.mpr ⟨j, rfl⟩)
        · simp only [y, Fin.append_left, Fin.append_right]
          exact hleft i
      · simp only [y, Fin.append_right]
        exact le_refl _
    · intro j hj
      induction j using Fin.addCases with
      | left j =>
          have := isArtificial_iff.mp hj
          have := j.isLt
          simp only [Fin.val_castAdd] at *
          omega
      | right a => simp only [y, Fin.append_right]
  refine ⟨y, horiginals, hproper, fun i => ?_⟩
  show ((ofProgram program).rows.get i).eval y = _
  rw [eval_ofProgram_proper i hproper, side_ofProgram, horiginals]
  simp only [y, slack, Fin.append_left, Fin.append_right, left]
  rw [add_sub_cancel]

/-- **Proper solutions of the first tableau are feasible.** -/
theorem feasible_of_solves
    {y : Fin (program.objective.length + program.constraints.length + artificials program) → K}
    (hy : Proper y) (hs : (ofProgram program).Solves y) : program.Feasible (originals y) := by
  refine ⟨List.length_ofFn, ?_, ?_⟩
  · intro v hv
    obtain ⟨j, rfl⟩ := List.mem_ofFn.mp hv
    exact hy.nonneg _
  · intro constraint hc
    obtain ⟨i, rfl⟩ := List.get_of_mem hc
    have hrow : ((ofProgram program).rows.get i).eval y = _ := hs i
    rw [eval_ofProgram_proper i hy, side_ofProgram] at hrow
    have := mul_left_cancel₀ (sign_ne_zero i) hrow
    have := hy.nonneg (slack i)
    linarith

/-! ### The first basis -/

theorem ofProgram_basic (program : Program K) : (ofProgram program).Basic := by
  constructor
  · intro i i'
    rw [basis_ofProgram]
    by_cases h' : isNegated (program.constraints.get i').bound = true
    · -- an artificial column belongs to the one row it was handed out for
      rw [dif_pos h', coefficient_ofProgram,
        augmented_of_isArtificial (isArtificial_artificialColumn h'), mul_zero, zero_add]
      by_cases hi : i = i'
      · subst hi
        rw [dif_pos h', if_pos rfl, if_pos rfl]
      · rw [if_neg hi]
        by_cases h : isNegated (program.constraints.get i).bound = true
        · rw [dif_pos h, if_neg fun he => hi (artificialColumn_injective h' h he).symm]
        · rw [dif_neg h]
    · rw [dif_neg h', coefficient_ofProgram_slack]
      by_cases hi : i = i'
      · subst hi
        rw [if_pos rfl, if_pos rfl]
        exact if_neg h'
      · rw [if_neg hi, if_neg hi]
  · intro i
    rw [side_ofProgram]
    unfold sign
    split
    · rename_i h
      have hneg : (program.constraints.get i).bound < 0 := by simpa [isNegated] using h
      linarith
    · rename_i h
      have hpos : ¬(program.constraints.get i).bound < 0 := by simpa [isNegated] using h
      rw [one_mul]
      exact not_lt.mp hpos

/-! ### Installing costs -/

variable {t : Tableau K n m k}

/-- One step of the installation, named so that the proofs can talk about it. -/
private def priceOut (t : Tableau K n m k) (eps : K) (cost : Equation K (n + m + k)) (i : Fin m) :
    Equation K (n + m + k) :=
  if eps < Scalar.abs (cost.coefficient (t.basis.get i)) then
    cost.minus (cost.coefficient (t.basis.get i)) (t.rows.get i)
  else cost

private theorem vector_priceOut {eps : K} {cost : Equation K (n + m + k)} {i : Fin m}
    (h : cost.coefficient (t.basis.get i) = 0 ∨ eps < |cost.coefficient (t.basis.get i)|) :
    (t.priceOut eps cost i).vector
      = cost.vector - cost.coefficient (t.basis.get i) • (t.rows.get i).vector := by
  unfold priceOut
  rw [Scalar.abs_eq]
  by_cases hlarge : eps < |cost.coefficient (t.basis.get i)|
  · rw [if_pos hlarge, Equation.vector_minus]
  · rw [if_neg hlarge, h.resolve_right hlarge, zero_smul, sub_zero]

/-- The rows are priced out one by one, and none of them changes the costs of the columns that
the others determine. -/
private theorem foldl_priceOut (h : t.Identity) {eps : K} {installed : Equation K (n + m + k)}
    (hlarge : ∀ i, installed.coefficient (t.basis.get i) = 0 ∨
      eps < |installed.coefficient (t.basis.get i)|) :
    ∀ (l : List (Fin m)) (cost : Equation K (n + m + k)), l.Nodup →
      (∀ i ∈ l, cost.coefficient (t.basis.get i) = installed.coefficient (t.basis.get i)) →
      (l.foldl (t.priceOut eps) cost).vector = cost.vector -
        (l.map fun i => installed.coefficient (t.basis.get i) • (t.rows.get i).vector).sum := by
  intro l
  induction l with
  | nil => intro cost _ _; simp
  | cons row rest ih =>
      intro cost hnodup hcost
      obtain ⟨hrow, hnodup⟩ := List.nodup_cons.mp hnodup
      have hfirst := hcost row List.mem_cons_self
      have hvector : (t.priceOut eps cost row).vector
          = cost.vector - installed.coefficient (t.basis.get row) • (t.rows.get row).vector :=
        hfirst ▸ vector_priceOut (hfirst ▸ hlarge row)
      rw [List.foldl_cons, ih _ hnodup, hvector, List.map_cons, List.sum_cons, sub_sub]
      intro i hi
      have hcoef : (t.priceOut eps cost row).coefficient (t.basis.get i)
          = cost.coefficient (t.basis.get i) - installed.coefficient (t.basis.get row) *
              (t.rows.get row).coefficient (t.basis.get i) := congrFun hvector (some _)
      rw [hcoef, h row i, if_neg fun he : row = i => hrow (he ▸ hi), mul_zero, sub_zero,
        hcost i (List.mem_cons_of_mem _ hi)]

variable {eps : K} {installed : Equation K (n + m + k)}

/-- **Installing costs takes multiples of the rows away**, if no cost of a basic column is close to
zero but for those that are zero. -/
theorem vector_withCost (h : t.Identity)
    (hlarge : ∀ i, installed.coefficient (t.basis.get i) = 0 ∨
      eps < |installed.coefficient (t.basis.get i)|) :
    (t.withCost eps installed).cost.vector = installed.vector -
      ∑ i, installed.coefficient (t.basis.get i) • (t.rows.get i).vector := by
  have hcost : (t.withCost eps installed).cost
      = (List.finRange m).foldl (t.priceOut eps) installed := rfl
  rw [hcost, foldl_priceOut h hlarge _ _ (List.nodup_finRange m) fun _ _ => rfl, Fin.sum_univ_def]

/-- The basic columns then cost nothing. -/
theorem cost_withCost_basis (h : t.Identity)
    (hlarge : ∀ i, installed.coefficient (t.basis.get i) = 0 ∨
      eps < |installed.coefficient (t.basis.get i)|) (j : Fin m) :
    (t.withCost eps installed).cost.coefficient (t.basis.get j) = 0 := by
  rw [← Equation.vector_some, vector_withCost h hlarge]
  simp only [Pi.sub_apply, Finset.sum_apply, Pi.smul_apply, Equation.vector_some, smul_eq_mul]
  simp only [h _ j, mul_ite, mul_one, mul_zero, Finset.sum_ite_eq', Finset.mem_univ, if_true,
    sub_self]

/-- **Installed costs price a basic tableau.** -/
theorem withCost_priced (hb : t.Basic) (installed : Equation K (n + m + k)) :
    (t.withCost 0 installed).Priced installed := by
  have hlarge : ∀ i, installed.coefficient (t.basis.get i) = 0 ∨
      0 < |installed.coefficient (t.basis.get i)| := fun i => by
    rw [abs_pos]
    exact em _
  constructor
  · exact cost_withCost_basis hb.identity hlarge
  · rw [vector_withCost hb.identity hlarge, sub_sub_cancel]
    exact Submodule.sum_mem _ fun i _ => Submodule.smul_mem _ _ (t.row_mem i)

omit [IsStrictOrderedRing K] in
theorem withCost_basic (hb : t.Basic) (installed : Equation K (n + m + k)) :
    (t.withCost 0 installed).Basic := ⟨hb.identity, hb.sides⟩

end Tableau

end MarkovPlanning.Linear
