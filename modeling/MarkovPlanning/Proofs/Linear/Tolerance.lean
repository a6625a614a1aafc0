/-
How far an optimum may be from allowed when numbers close to zero count as zero.

With a positive tolerance the simplex method answers with a point that the constraints
may not allow: a coefficient that is below the tolerance never limits a variable, and a
row whose ratio is within the tolerance of the least one is overdrawn.  Whatever is
amiss in the answer comes from there, and `shortfall` and `excess` add it up along the
pivots of the search.  A variable is below zero by no more than its row owes.  A
constraint is exceeded by no more than its slack variable owes, what its artificial
variable has left, and the numbers that its equation has lost.

Nothing else enters into it.  If no pivot loses a number, no ratio that is chosen
exceeds the least and the first phase ends with artificial variables that cost nothing,
then all of it is zero and the answer is allowed (`margins_eq_zero`).  In any case these
are no more than the tolerance, for a ratio the tolerance per row and for a number of a pivot
row the tolerance times the pivot (`SlipsWithin`).  What they are multiplied by are entries
of the tableaux over pivots, and shares of rows in the equation of a constraint.

The first phase ends with artificial variables that cost next to nothing.  The trail of
their cost tells how much they can be for that (`abs_side_le_leftover`).
-/
import MarkovPlanning.Proofs.Linear.Drift
import MarkovPlanning.Proofs.Linear.Answers
import Mathlib

namespace MarkovPlanning.Linear

variable {K : Type} [Field K] [LinearOrder K]

/-- What the rows of a tableau owe, and what the artificial variables that are basic in them have
left. -/
structure Debts (K : Type) (m : Nat) where
  owed : Fin m → K
  left : Fin m → K

/-- What becomes of both when an artificial variable is driven out. -/
def Debts.spill {n m k : Nat} (eps : K) (debts : Debts K m) (exchange : Exchange K n m k) :
    Debts K m where
  owed := exchange.spill eps (debts.left exchange.row) debts.owed
  left := exchange.spill eps (debts.left exchange.row) debts.left

namespace Tableau

open Equation (residual)

/-! ### What is read off a search -/

section
variable (settings : Settings K) (program : Program K)

/-- Where the first phase begins. -/
def firstStart : Of program := (ofProgram program).withCost settings.tolerance artificialCost

/-- The end of the first phase.  Without artificial variables there is nothing for it to do. -/
def firstEnd : Verdict × Of program × Nat :=
  run settings.tolerance true settings.maxPivots (firstStart settings program)

/-- Where the second phase begins. -/
def secondStart : Of program :=
  ((firstEnd settings program).2.1.driveOut settings.tolerance).withCost settings.tolerance
    (objectiveCost program.objective)

/-- The end of the second phase. -/
def secondEnd : Verdict × Of program × Nat :=
  run settings.tolerance false (firstEnd settings program).2.2 (secondStart settings program)

/-- The pivots of a search on a program. -/
abbrev Exchanges (program : Program K) : Type :=
  List (Exchange K program.objective.length program.constraints.length (artificials program))

/-- The pivots of the first phase. -/
def firstExchanges : Exchanges program :=
  exchanges settings.tolerance true settings.maxPivots (firstStart settings program)

/-- The pivots between the phases. -/
def driveExchanges : Exchanges program :=
  drivings settings.tolerance (List.finRange program.constraints.length)
    (firstEnd settings program).2.1

/-- The pivots of the second phase. -/
def secondExchanges : Exchanges program :=
  exchanges settings.tolerance false (firstEnd settings program).2.2 (secondStart settings program)

/-- All pivots of a search. -/
def searchExchanges : Exchanges program :=
  firstExchanges settings program ++ driveExchanges settings program ++
    secondExchanges settings program

/-- The trail of the equation of a constraint. -/
def rowTrail (i : Fin program.constraints.length) :
    Trail K program.objective.length program.constraints.length (artificials program) :=
  (searchExchanges settings program).foldl (Trail.follow settings.tolerance)
    (.start (Pi.single (some i) 1))

/-- The shares that the first lines have in the cost of the artificial variables. -/
def artificialShares : Option (Fin program.constraints.length) → K
  | none => 1
  | some i => (artificialCost : Equation K _).coefficient ((ofProgram program).basis.get i)

/-- The trail of the cost of the artificial variables, in the first phase. -/
def artificialTrail :
    Trail K program.objective.length program.constraints.length (artificials program) :=
  (firstExchanges settings program).foldl (Trail.follow settings.tolerance)
    (.start (artificialShares program))

/-- What the rows owe after the first phase. -/
def firstOwed : Fin program.constraints.length → K :=
  (firstExchanges settings program).foldl (Exchange.charge settings.tolerance) 0

/-- What an artificial variable may have left after the first phase: what they still cost all
together, what the trail of this cost has lost, and what others owe. -/
def leftover : K :=
  max 0 (-(firstEnd settings program).2.1.cost.side) +
    (artificialTrail settings program).missed (firstEnd settings program).2.1.basicPoint +
    ∑ i, firstOwed settings program i

/-- What is owed and left after artificial variables were driven out. -/
def freed : Debts K program.constraints.length :=
  (driveExchanges settings program).foldl (Debts.spill settings.tolerance)
    { owed := firstOwed settings program, left := fun _ => leftover settings program }

/-- What the rows owe in the end. -/
def lastOwed : Fin program.constraints.length → K :=
  (secondExchanges settings program).foldl (Exchange.charge settings.tolerance)
    (freed settings program).owed

/-- How far a variable of the program may be below zero. -/
def shortfall (j : Fin program.objective.length) : K :=
  (secondEnd settings program).2.1.spread (lastOwed settings program) (original j)

/-- By how much a constraint may be exceeded. -/
def excess (i : Fin program.constraints.length) : K :=
  let last := (secondEnd settings program).2.1
  last.spread (lastOwed settings program) (slack i) +
    (if h : isNegated (program.constraints.get i).bound = true then
      last.spread (freed settings program).left (artificialColumn program i h)
    else 0) +
    (rowTrail settings program i).missed last.basicPoint

/-- Nothing that a search passes over exceeds some amount: the numbers that pivots lose, what
ratios that are chosen exceed the least one by, for every row, and what the artificial variables
cost after the first phase. -/
structure SlipsWithin (amount : K) : Prop where
  lost : ∀ exchange ∈ searchExchanges settings program, ∀ l j,
    |exchange.lost settings.tolerance l j|
      ≤ if l = some exchange.row then |exchange.entry l| * amount else amount
  overshoot : ∀ exchange ∈ firstExchanges settings program ++ secondExchanges settings program,
    exchange.overshoot settings.tolerance ≤ program.constraints.length * amount
  unpaid : -(firstEnd settings program).2.1.cost.side ≤ amount

end

variable [IsStrictOrderedRing K]
variable {settings : Settings K} {program : Program K} {eps : K}

/-! ### The end of the first phase -/

/-- The artificial costs are not close to zero. -/
private theorem artificialCost_large (h1 : eps < 1) {n m k : Nat}
    (j : Fin (n + m + k)) :
    (artificialCost : Equation K (n + m + k)).coefficient j = 0 ∨
      eps < |(artificialCost : Equation K (n + m + k)).coefficient j| := by
  rw [coefficient_artificialCost]
  split
  · rw [abs_one]
    exact Or.inr h1
  · exact Or.inl rfl

section
variable (program) (h0 : 0 ≤ settings.tolerance) (h1 : settings.tolerance < 1)

omit [IsStrictOrderedRing K] in
private theorem chained_first : Chained settings.tolerance (firstStart settings program)
    (firstExchanges settings program) (firstEnd settings program).2.1 := chained_exchanges _ _

include h0 in
private theorem chosen_first : ∀ exchange ∈ firstExchanges settings program,
    exchange.Chosen settings.tolerance true := fun _ => chosen_of_mem_exchanges h0

include h0 h1 in
/-- The first phase keeps the basic columns an identity, without cost. -/
private theorem first_identity : (firstEnd settings program).2.1.Identity ∧
    ∀ i, (firstEnd settings program).2.1.cost.coefficient
      ((firstEnd settings program).2.1.basis.get i) = 0 := by
  have hidentity := (ofProgram_basic program).identity
  refine (chained_first program).keeps (P := fun t => t.Identity ∧
      ∀ i, t.cost.coefficient (t.basis.get i) = 0) (fun exchange hexchange h => ?_)
    ⟨hidentity, cost_withCost_basis hidentity fun i => artificialCost_large h1 _⟩
  have hlarge := (chosen_first program h0 exchange hexchange).large
  exact ⟨Identity.pivot h.1 h1.le (h0.trans_lt hlarge).ne', Exchange.cost_basis_after h.1 h.2⟩

include h0 in
private theorem first_owes :
    (firstEnd settings program).2.1.Owes (firstOwed settings program) := by
  refine Owes.foldl h0 (chained_first program) (chosen_first program h0)
    ⟨fun _ => le_refl 0, fun i => ?_⟩
  rw [Pi.zero_apply, neg_zero]
  exact (ofProgram_basic program).sides i

include h1 in
/-- The cost of the artificial variables is what the first lines have as their shares in it. -/
private theorem artificialTrail_leads : (artificialTrail settings program).Leads
    (artificialCost : Equation K _).vector (firstEnd settings program).2.1 := by
  refine (chained_first program).leads ?_
  have hsource : ∑ l, artificialShares program l • (firstStart settings program).line l
      = (artificialCost : Equation K _).vector := by
    have hcost : (firstStart settings program).line none
        = artificialCost.vector - ∑ i, (artificialCost : Equation K _).coefficient
            ((ofProgram program).basis.get i) • ((ofProgram program).rows.get i).vector :=
      vector_withCost (ofProgram_basic program).identity fun i => artificialCost_large h1 _
    rw [Fintype.sum_option, artificialShares, one_smul, hcost]
    exact sub_add_cancel _ _
  rw [← hsource]
  exact Trail.leads_start _

include h0 h1 in
/-- All together the artificial variables are no more than they still cost, and what their trail
has lost. -/
private theorem eval_artificialCost_le :
    artificialCost.eval (firstEnd settings program).2.1.basicPoint
      ≤ max 0 (-(firstEnd settings program).2.1.cost.side) +
        (artificialTrail settings program).missed (firstEnd settings program).2.1.basicPoint := by
  obtain ⟨hidentity, hbasis⟩ := first_identity program h0 h1
  set last := (firstEnd settings program).2.1 with hlast
  have hmissed := (artificialTrail_leads program h1).abs_residual_sub_le
    (basicPoint_solves hidentity)
  have hshare : (artificialTrail settings program).shares none = 1 :=
    Trail.shares_foldl_none _ _ _
  have hcost : last.cost.eval last.basicPoint = 0 := by
    rw [basicPoint, eval_spread]
    exact Finset.sum_eq_zero fun i _ => by rw [hbasis, zero_mul]
  rw [hshare, one_mul, Equation.residual_vector, Equation.residual_vector, hcost,
    side_artificialCost] at hmissed
  linarith [le_of_abs_le hmissed, le_max_right 0 (-last.cost.side)]

include h0 h1 in
/-- **Every artificial variable that is still basic has no more left than that, and what other rows
owe.** -/
private theorem abs_side_le_leftover {i : Fin program.constraints.length}
    (hi : isArtificial ((firstEnd settings program).2.1.basis.get i) = true) :
    |((firstEnd settings program).2.1.rows.get i).side| ≤ leftover settings program := by
  have hsum := eval_artificialCost_le program h0 h1
  have howes := first_owes program h0
  set last := (firstEnd settings program).2.1 with hlast
  set owed := firstOwed settings program with howed
  -- the sides of the artificial variables add up to little, and none is far below zero
  have hterm : ∀ i, 0 ≤ (artificialCost : Equation K _).coefficient (last.basis.get i) *
      (last.rows.get i).side + owed i := by
    intro i
    rw [coefficient_artificialCost]
    split
    · linarith [howes.side i]
    · rw [zero_mul, zero_add]
      exact howes.nonneg i
  have hone := Finset.single_le_sum (fun i _ => hterm i) (Finset.mem_univ i)
  rw [Finset.sum_add_distrib, ← eval_spread, coefficient_artificialCost, if_pos hi, one_mul] at hone
  change _ ≤ artificialCost.eval last.basicPoint + _ at hone
  have hsingle := Finset.single_le_sum (fun i _ => howes.nonneg i) (Finset.mem_univ i)
  have hnonneg : 0 ≤ max 0 (-last.cost.side) +
      (artificialTrail settings program).missed last.basicPoint :=
    add_nonneg (le_max_left _ _)
      ((abs_nonneg _).trans ((artificialTrail_leads program h1).abs_residual_sub_le
        (basicPoint_solves (first_identity program h0 h1).1)))
  rw [leftover, ← hlast, ← howed, abs_le]
  constructor
  · linarith [howes.side i]
  · linarith [howes.nonneg i]

/-! ### The end of the second phase -/

omit [IsStrictOrderedRing K] in
private theorem chained_drive : Chained settings.tolerance (firstEnd settings program).2.1
    (driveExchanges settings program)
    ((firstEnd settings program).2.1.driveOut settings.tolerance) := by
  rw [driveOut_eq]
  exact chained_drivings _ _ _

private theorem drives_drive : ∀ exchange ∈ driveExchanges settings program,
    exchange.Drives settings.tolerance := fun _ => drives_of_mem_drivings

omit [IsStrictOrderedRing K] in
private theorem chained_second : Chained settings.tolerance (secondStart settings program)
    (secondExchanges settings program) (secondEnd settings program).2.1 := chained_exchanges _ _

include h0 in
private theorem chosen_second : ∀ exchange ∈ secondExchanges settings program,
    exchange.Chosen settings.tolerance false := fun _ => chosen_of_mem_exchanges h0

include h0 h1 in
/-- The whole search keeps the basic columns an identity. -/
private theorem second_identity : (secondEnd settings program).2.1.Identity := by
  have hdriven : ((firstEnd settings program).2.1.driveOut settings.tolerance).Identity :=
    (chained_drive program).keeps (fun exchange hexchange h => Identity.pivot h h1.le
      (abs_pos.mp (h0.trans_lt (drives_drive program exchange hexchange).large)))
      (first_identity program h0 h1).1
  exact (chained_second program).keeps (fun exchange hexchange h => Identity.pivot h h1.le
    (h0.trans_lt (chosen_second program h0 exchange hexchange).large).ne') hdriven

include h0 h1 in
/-- What is owed and left when the artificial variables have been driven out. -/
private theorem freed_spec :
    let driven := (firstEnd settings program).2.1.driveOut settings.tolerance
    driven.Owes (freed settings program).owed ∧ ∀ i, isArtificial (driven.basis.get i) = true →
      |(driven.rows.get i).side| ≤ (freed settings program).left i := by
  refine (chained_drive program).foldl _
    (P := fun (debts : Debts K program.constraints.length) t => Owes t debts.owed ∧
        ∀ i, isArtificial (t.basis.get i) = true → |(t.rows.get i).side| ≤ debts.left i)
    (fun debts exchange hexchange h => ?_)
    ⟨first_owes program h0, fun i hi => abs_side_le_leftover program h0 h1 hi⟩
  obtain ⟨hleaves, henters, -⟩ := drives_drive program exchange hexchange
  have hside := h.2 _ hleaves
  refine ⟨h.1.spill hside, fun i hi => ?_⟩
  obtain ⟨hne, hi⟩ := isArtificial_basis_pivot henters hi
  exact abs_side_after_le hside hne (h.2 i hi)

include h0 h1 in
private theorem second_owes :
    (secondEnd settings program).2.1.Owes (lastOwed settings program) := by
  refine Owes.foldl h0 (chained_second program) (chosen_second program h0) ?_
  exact ⟨(freed_spec program h0 h1).1.nonneg, (freed_spec program h0 h1).1.side⟩

include h0 h1 in
/-- The second phase does not touch what artificial variables have left. -/
private theorem second_left {i : Fin program.constraints.length}
    (hi : isArtificial ((secondEnd settings program).2.1.basis.get i) = true) :
    |((secondEnd settings program).2.1.rows.get i).side| ≤ (freed settings program).left i := by
  refine ((chained_second program).keeps (P := fun t => t.Spent settings.tolerance (fun _ => True) ∧
      ∀ i, isArtificial (t.basis.get i) = true →
        |(t.rows.get i).side| ≤ (freed settings program).left i)
    (fun exchange hexchange h => ?_)
    ⟨driveOut_spent h0 _, (freed_spec program h0 h1).2⟩).2 i hi
  have hcolumn : isArtificial exchange.column = false :=
    (chosen_second program h0 exchange hexchange).enters.resolve_left Bool.false_ne_true
  have hafter := fun i => h.1.pivot (i := i) h0 hcolumn trivial
  refine ⟨fun i _ hi => (hafter i hi).2.2, fun i hi => ?_⟩
  obtain ⟨hbefore, hside, -⟩ := hafter i hi
  rw [hside]
  exact h.2 i hbefore

variable (settings) in
/-- The equation of a constraint is followed through the whole search. -/
private theorem rowTrail_leads (i : Fin program.constraints.length) :
    (rowTrail settings program i).Leads ((ofProgram program).rows.get i).vector
      (secondEnd settings program).2.1 := by
  have hsource : ∑ l, (Pi.single (some i) 1 : Option _ → K) l •
      (firstStart settings program).line l = ((ofProgram program).rows.get i).vector := by
    rw [Finset.sum_eq_single (some i)]
    · rw [Pi.single_eq_same, one_smul]
      rfl
    · intro l _ hl
      rw [Pi.single_eq_of_ne hl, zero_smul]
    · intro hl
      exact absurd (Finset.mem_univ _) hl
  have hstart : (Trail.start (Pi.single (some i) 1)).Leads
      ((ofProgram program).rows.get i).vector (firstStart settings program) :=
    hsource ▸ Trail.leads_start _
  have hdriven := (chained_drive program).leads ((chained_first program).leads hstart)
  rw [rowTrail, searchExchanges, List.foldl_append, List.foldl_append]
  refine (chained_second program).leads (hdriven.withCost ?_ _ _)
  rw [Trail.shares_foldl_none, Trail.shares_foldl_none]
  exact Pi.single_eq_of_ne (Option.some_ne_none i).symm (1 : K)

end

/-! ### The basic solution -/

section
variable {n m k : Nat} {t : Tableau K n m k}

/-- A variable of the basic solution is below zero by no more than its row owes. -/
private theorem Owes.neg_le_basicPoint {owed : Fin m → K} (h : t.Owes owed)
    (j : Fin (n + m + k)) : -t.spread owed j ≤ t.basicPoint j := by
  rw [basicPoint, spread, spread, ← Finset.sum_neg_distrib]
  refine Finset.sum_le_sum fun i _ => ?_
  split
  · exact h.side i
  · rw [neg_zero]

/-- An artificial variable of the basic solution is no more than it has left. -/
private theorem basicPoint_le_spread {left : Fin m → K}
    (h : ∀ i, isArtificial (t.basis.get i) = true → |(t.rows.get i).side| ≤ left i)
    {j : Fin (n + m + k)} (hj : isArtificial j = true) : t.basicPoint j ≤ t.spread left j := by
  rw [basicPoint, spread, spread]
  refine Finset.sum_le_sum fun i _ => ?_
  by_cases hi : t.basis.get i = j
  · rw [if_pos hi, if_pos hi]
    exact le_of_abs_le (h i (hi ▸ hj))
  · rw [if_neg hi, if_neg hi]

end

/-- **By how much the basic solution exceeds a constraint.** -/
private theorem dot_originals_le (program : Program K) (h0 : 0 ≤ settings.tolerance)
    (h1 : settings.tolerance < 1) (i : Fin program.constraints.length) :
    Scalar.dot (program.constraints.get i).coefficients
        (originals (secondEnd settings program).2.1.basicPoint)
      ≤ (program.constraints.get i).bound + excess settings program i := by
  have howed := (second_owes program h0 h1).neg_le_basicPoint (slack i)
  have hmissed := (rowTrail_leads settings program i).abs_residual_sub_le
    (basicPoint_solves (second_identity program h0 h1))
  have hshare : (rowTrail settings program i).shares none = 0 :=
    (Trail.shares_foldl_none _ _ _).trans (Pi.single_eq_of_ne (Option.some_ne_none i).symm (1 : K))
  rw [hshare, zero_mul, sub_zero, Equation.residual_vector, eval_ofProgram, side_ofProgram, sign]
    at hmissed
  unfold excess
  dsimp only
  by_cases hi : isNegated (program.constraints.get i).bound = true
  · -- the equation was negated and has an artificial variable
    have hleft := basicPoint_le_spread (fun i hi => second_left program h0 h1 hi)
      (isArtificial_artificialColumn hi)
    rw [if_pos hi, dif_pos hi] at hmissed
    rw [dif_pos hi]
    linarith [neg_le_of_abs_le hmissed]
  · rw [if_neg hi, dif_neg hi] at hmissed
    rw [dif_neg hi]
    linarith [le_of_abs_le hmissed]

/-! ### Both phases -/

section
variable (hzero : artificials program = 0)
include hzero

omit [IsStrictOrderedRing K] in
private theorem isArtificial_eq_false (j : Fin (program.objective.length +
    program.constraints.length + artificials program)) : isArtificial j = false := by
  by_contra hj
  have := isArtificial_iff.mp (Bool.not_eq_false _ ▸ hj)
  omega

omit [IsStrictOrderedRing K] in
private theorem coefficient_artificialCost_eq_zero (j : Fin (program.objective.length +
    program.constraints.length + artificials program)) :
    (artificialCost : Equation K _).coefficient j = 0 := by
  rw [coefficient_artificialCost, isArtificial_eq_false hzero, if_neg Bool.false_ne_true]

/-- Without artificial variables there is nothing to price out. -/
private theorem vector_cost_firstStart :
    (firstStart settings program).cost.vector = (artificialCost : Equation K _).vector := by
  rw [firstStart, vector_withCost (ofProgram_basic program).identity
    fun i => Or.inl (coefficient_artificialCost_eq_zero hzero _)]
  simp only [coefficient_artificialCost_eq_zero hzero, zero_smul, Finset.sum_const_zero, sub_zero]

/-- Nor is a column worth entering in the first phase. -/
private theorem firstEnd_eq (h0 : 0 ≤ settings.tolerance) :
    firstEnd settings program = (.optimal, firstStart settings program, settings.maxPivots) := by
  have henters : (firstStart settings program).entering? settings.tolerance true = none := by
    refine List.find?_eq_none.mpr fun j _ => ?_
    have hj : (firstStart settings program).cost.coefficient j = 0 :=
      (congrFun (vector_cost_firstStart hzero) (some j)).trans
        (coefficient_artificialCost_eq_zero hzero j)
    simp only [hj, Bool.true_or, Bool.true_and, decide_eq_true_eq, not_lt]
    exact neg_nonpos.mpr h0
  unfold firstEnd
  cases settings.maxPivots <;> simp only [run, henters]

/-- The first phase leaves the tableau as it is then, and so does driving the artificial variables
out. -/
private theorem secondEnd_of_artificials_eq_zero (h0 : 0 ≤ settings.tolerance) :
    (firstEnd settings program).2.1.cost.side = 0 ∧
      secondEnd settings program = run settings.tolerance false settings.maxPivots
        ((ofProgram program).withCost settings.tolerance (objectiveCost program.objective)) := by
  have hdrive : (firstStart settings program).driveOut settings.tolerance
      = firstStart settings program := by
    unfold driveOut
    refine List.foldl_fixed' (fun row => ?_) _
    rw [isArtificial_eq_false hzero, if_neg Bool.false_ne_true]
  constructor
  · rw [firstEnd_eq hzero h0]
    exact congrFun (vector_cost_firstStart hzero) none
  · rw [secondEnd, secondStart, firstEnd_eq hzero h0, hdrive]
    rfl

end

omit [IsStrictOrderedRing K] in
private theorem eq_point_of_secondPhase {objective : List K} {n m k pivots : Nat}
    {t : Tableau K n m k} {point : List K} {value : K}
    (h : (t.secondPhase eps objective pivots).1 = .optimal point value) :
    point = (run eps false pivots (t.withCost eps (objectiveCost objective))).2.1.point.toList := by
  unfold secondPhase at h
  split at h
  · rename_i last left hrun
    rw [hrun]
    exact (Outcome.optimal.inj h).1.symm
  · exact absurd h (by simp)
  · exact absurd h (by simp)

/-- An optimum is the point of the last tableau, and is only looked for when the artificial
variables seem to be zero. -/
private theorem eq_point_of_maximize (h0 : 0 ≤ settings.tolerance) {point : List K} {value : K}
    (h : (maximize settings program).outcome = .optimal point value) :
    -(firstEnd settings program).2.1.cost.side ≤ settings.tolerance ∧
      point = (secondEnd settings program).2.1.point.toList := by
  simp only [maximize] at h
  by_cases hzero : artificials program = 0
  · rw [if_pos hzero] at h
    obtain ⟨hside, hsecond⟩ := secondEnd_of_artificials_eq_zero hzero h0
    rw [hside, neg_zero, hsecond]
    exact ⟨h0, eq_point_of_secondPhase h⟩
  · rw [if_neg hzero] at h
    cases hresult : firstEnd settings program with
    | mk verdict rest =>
        obtain ⟨last, left⟩ := rest
        have hphases : (if settings.tolerance < -last.cost.side then (Outcome.infeasible, left)
            else (last.driveOut settings.tolerance).secondPhase settings.tolerance
              program.objective left).1 = .optimal point value := by
          unfold firstEnd firstStart at hresult
          rw [hresult] at h
          cases verdict with
          | exhausted => exact absurd h (by simp)
          | optimal => exact h
          | unbounded => exact h
        by_cases hpos : settings.tolerance < -last.cost.side
        · rw [if_pos hpos] at hphases
          exact absurd hphases (by simp)
        · rw [if_neg hpos] at hphases
          refine ⟨not_lt.mp hpos, ?_⟩
          rw [secondEnd, secondStart, hresult]
          exact eq_point_of_secondPhase hphases

/-! ### What a search passes over -/

/-- **Nothing that is passed over exceeds the tolerance.** -/
private theorem slipsWithin_tolerance (h0 : 0 ≤ settings.tolerance) (h1 : settings.tolerance < 1)
    (hunpaid : -(firstEnd settings program).2.1.cost.side ≤ settings.tolerance) :
    SlipsWithin settings program settings.tolerance where
  lost := by
    intro exchange hexchange
    refine Exchange.abs_lost_le h0 h1.le ?_
    rcases List.mem_append.mp hexchange with hexchange | hexchange
    · rcases List.mem_append.mp hexchange with hexchange | hexchange
      · exact (chosen_first program h0 exchange hexchange).large.trans_le (le_abs_self _)
      · exact (drives_drive program exchange hexchange).large
    · exact (chosen_second program h0 exchange hexchange).large.trans_le (le_abs_self _)
  overshoot := by
    intro exchange hexchange
    rcases List.mem_append.mp hexchange with hexchange | hexchange
    · exact (chosen_first program h0 exchange hexchange).overshoot_le h0
    · exact (chosen_second program h0 exchange hexchange).overshoot_le h0
  unpaid := hunpaid

/-! ### Searches that pass nothing over -/

section
variable {n m k : Nat} {l : List (Exchange K n m k)}

omit [IsStrictOrderedRing K] in
private theorem foldl_spill_zero (l : List (Exchange K n m k)) :
    l.foldl (Debts.spill eps) { owed := 0, left := 0 } = { owed := 0, left := 0 } := by
  have hzero : ∀ exchange : Exchange K n m k, exchange.spill eps 0 0 = 0 := fun exchange => by
    funext i
    simp [Exchange.spill]
  exact List.foldl_fixed' (fun exchange => congrArg₂ Debts.mk (hzero _) (hzero _)) l

end

/-- **If nothing is passed over, nothing is amiss**: no variable may be below zero, and no
constraint may be exceeded. -/
private theorem margins_eq_zero (h : SlipsWithin settings program 0) :
    (∀ j, shortfall settings program j = 0) ∧ ∀ i, excess settings program i = 0 := by
  have hovershoot : ∀ exchange ∈
      firstExchanges settings program ++ secondExchanges settings program,
      exchange.overshoot settings.tolerance = 0 := fun exchange hexchange =>
    le_antisymm (by simpa using h.overshoot exchange hexchange) Exchange.overshoot_nonneg
  have hlost : ∀ exchange ∈ searchExchanges settings program, ∀ l j,
      exchange.lost settings.tolerance l j = 0 := fun exchange hexchange l j =>
    abs_nonpos_iff.mp (by simpa using h.lost exchange hexchange l j)
  have hfirst : firstOwed settings program = 0 := foldl_charge_zero fun exchange hexchange =>
    hovershoot exchange (List.mem_append_left _ hexchange)
  have hleftover : leftover settings program = 0 := by
    have hmissed : (artificialTrail settings program).missed
        (firstEnd settings program).2.1.basicPoint = 0 :=
      Trail.missed_eq_zero (Trail.drops_foldl_eq_zero (fun exchange hexchange =>
        hlost exchange (List.mem_append_left _ (List.mem_append_left _ hexchange))) rfl) _
    rw [leftover, hfirst, hmissed, max_eq_left h.unpaid]
    simp
  have hfreed : freed settings program = { owed := 0, left := 0 } := by
    rw [freed, hfirst, hleftover]
    exact foldl_spill_zero _
  have hlast : lastOwed settings program = 0 := by
    rw [lastOwed, hfreed]
    exact foldl_charge_zero fun exchange hexchange =>
      hovershoot exchange (List.mem_append_right _ hexchange)
  have hspread : ∀ j, (secondEnd settings program).2.1.spread 0 j = 0 := fun j =>
    spread_eq_zero fun _ _ => rfl
  refine ⟨fun j => ?_, fun i => ?_⟩
  · rw [shortfall, hlast, hspread]
  · have hmissed : (rowTrail settings program i).missed
        (secondEnd settings program).2.1.basicPoint = 0 :=
      Trail.missed_eq_zero (Trail.drops_foldl_eq_zero hlost rfl) _
    simp only [excess, hlast, hfreed, hspread, hmissed, dite_eq_ite, ite_self, add_zero]

end Tableau

open Tableau

/-- The points that some rows and their bounds allow but for some margins: each variable may be
below zero by so much, and each bound may be exceeded by so much. -/
structure AllowedWithin {n : Nat} (rows : List (List K)) (bounds : List K) (below : Fin n → K)
    (above : Fin rows.length → K) (x : Fin n → K) : Prop where
  nonneg : ∀ j, -below j ≤ x j
  bounded : ∀ i : Fin rows.length,
    ∑ j : Fin n, (rows.get i).getD j 0 * x j ≤ bounds.getD i 0 + above i

omit [Field K] [LinearOrder K] in
/-- Every row has its constraint if there are bounds enough. -/
theorem length_ofMatrix (objective : List K) {rows : List (List K)} {bounds : List K}
    (hbounds : rows.length ≤ bounds.length) :
    rows.length = (Program.ofMatrix objective rows bounds).constraints.length := by
  simp [Program.ofMatrix, hbounds]

variable [IsStrictOrderedRing K]

/-- **With a tolerance an optimum is allowed but for what the search passed over.**  Every variable
is at least its shortfall below zero and no row exceeds its bound by more than its excess; both are
sums of numbers that pivots lost, of what ratios exceeded the least one by, and of what the first
phase left of the artificial variables, and the tolerance bounds each of these.  If there are no
such numbers, the optimum is allowed. -/
theorem maximize_allowedWithin {settings : Settings K} (h0 : 0 ≤ settings.tolerance)
    (h1 : settings.tolerance < 1) (objective : List K) {rows : List (List K)} {bounds : List K}
    (hbounds : rows.length ≤ bounds.length) {point : List K} {value : K}
    (h : (maximize settings (.ofMatrix objective rows bounds)).outcome = .optimal point value) :
    let program : Program K := .ofMatrix objective rows bounds
    (∃ x : Fin objective.length → K, List.ofFn x = point ∧
      AllowedWithin rows bounds (shortfall settings program)
        (fun i => excess settings program (i.cast (length_ofMatrix objective hbounds))) x) ∧
      SlipsWithin settings program settings.tolerance ∧
      (SlipsWithin settings program 0 →
        (∀ j, shortfall settings program j = 0) ∧ ∀ i, excess settings program i = 0) := by
  intro program
  obtain ⟨hunpaid, hpoint⟩ := eq_point_of_maximize h0 h
  refine ⟨?_, slipsWithin_tolerance h0 h1 hunpaid, margins_eq_zero⟩
  set last := (secondEnd settings program).2.1 with hlast
  have hidentity : last.Identity := second_identity program h0 h1
  refine ⟨fun j => last.basicPoint (original j), ?_, fun j => ?_, fun i => ?_⟩
  · rw [hpoint, ← originals_basicPoint hidentity]
    rfl
  · exact (second_owes program h0 h1).neg_le_basicPoint (original j)
  · have hrow := dot_originals_le program h0 h1
      (i.cast (length_ofMatrix objective hbounds))
    have hget : program.constraints.get (i.cast (length_ofMatrix objective hbounds))
        = ⟨rows.get i, bounds.getD i 0⟩ := by
      rw [List.getD_eq_getElem _ _ (i.isLt.trans_le hbounds)]
      exact List.getElem_zipWith
    rw [hget] at hrow
    simp only [originals, dot_ofFn, ← List.getD_eq_getElem?_getD] at hrow
    exact hrow

/-- In the first program the second variable is below zero by its shortfall, because the first row
ties with the second.  In the second program, where the sum of two variables is one by two
constraints, nothing is passed over. -/
theorem maximize_allowedWithin_tied :
    let tied : Program ℚ := .ofMatrix [1, 1, 2000] [[1, 0, 1], [0, 1, 1000]] [1 + 9e-11, 1000]
    let shared : Program ℚ := .ofMatrix [1, -1] [[1, 1], [-1, -1], [1, 0]] [1, -1, 1/4]
    ((maximize .standard tied).outcome = .optimal [0, -9e-8, 1 + 9e-11] (2000 + 9e-8) ∧
      List.ofFn (shortfall .standard tied) = [0, 9e-8, 0] ∧
      List.ofFn (excess .standard tied) = [0, 0] ∧
      ∃ x : Fin 3 → ℚ, List.ofFn x = [0, -9e-8, 1 + 9e-11] ∧
        AllowedWithin [[1, 0, 1], [0, 1, 1000]] [1 + 9e-11, 1000] (shortfall .standard tied)
          (excess .standard tied) x) ∧
      (maximize .standard shared).outcome = .optimal [1/4, 3/4] (-1/2) ∧
      SlipsWithin .standard shared 0 ∧ ∀ i, excess .standard shared i = 0 := by
  intro tied shared
  have htied : (maximize .standard tied).outcome
      = .optimal [0, -9e-8, 1 + 9e-11] (2000 + 9e-8) := by decide +kernel
  have hshared : (maximize .standard shared).outcome = .optimal [1/4, 3/4] (-1/2) := by
    decide +kernel
  have hslips : SlipsWithin .standard shared 0 :=
    ⟨by decide +kernel, by decide +kernel, by decide +kernel⟩
  refine ⟨⟨htied, by decide +kernel, by decide +kernel, ?_⟩, hshared, hslips, ?_⟩
  · exact (maximize_allowedWithin (by decide +kernel) (by decide +kernel) [1, 1, 2000]
      (by decide) htied).1
  · exact ((maximize_allowedWithin (by decide +kernel) (by decide +kernel) [1, -1]
      (by decide) hshared).2.2 hslips).2

/-! ### Why the tolerance alone is not enough -/

/-- The points whose variables are below zero by no more than a tolerance, and which exceed each
bound by no more than the tolerance relative to the numbers that are added up and compared. -/
structure AllowedRelative {n : Nat} (eps : K) (rows : List (List K)) (bounds : List K)
    (x : Fin n → K) : Prop where
  nonneg : ∀ j, -eps ≤ x j
  bounded : ∀ i (hi : i < rows.length),
    ∑ j : Fin n, rows[i].getD j 0 * x j ≤ bounds.getD i 0 +
      eps * (1 + |bounds.getD i 0| + ∑ j : Fin n, |rows[i].getD j 0 * x j|)

/-- **An optimum may miss what is allowed by more than the tolerance, even relatively.**  In the
first program the coefficient of the first row is below the tolerance and limits nothing, so its
bound is exceeded tenfold.  In the second one the first row ties with the second, whose ratio is
less but within the tolerance, and the variable that the second row determines is left far below
zero. -/
theorem maximize_not_allowedRelative :
    let thin : List (List ℚ) := [[1e-11], [1]]
    let tied : List (List ℚ) := [[1, 0, 1], [0, 1, 1000]]
    (maximize .standard (.ofMatrix [1] thin [1, 1e12])).outcome = .optimal [1e12] 1e12 ∧
      ¬AllowedRelative (Settings.standard : Settings ℚ).tolerance thin [1, 1e12] ![1e12] ∧
      (maximize .standard (.ofMatrix [1, 1, 2000] tied [1 + 9e-11, 1000])).outcome
        = .optimal [0, -9e-8, 1 + 9e-11] (2000 + 9e-8) ∧
      ¬AllowedRelative (Settings.standard : Settings ℚ).tolerance tied [1 + 9e-11, 1000]
        ![0, -9e-8, 1 + 9e-11] := by
  intro thin tied
  have htolerance : (Settings.standard : Settings ℚ).tolerance = 1e-10 := rfl
  refine ⟨by decide +kernel, fun h => ?_, by decide +kernel, fun h => ?_⟩
  · have hrow := h.bounded 0 (by decide)
    rw [htolerance] at hrow
    norm_num [thin] at hrow
  · have hvariable := h.nonneg 1
    rw [htolerance] at hvariable
    norm_num at hvariable

end MarkovPlanning.Linear
