/-
What the simplex method answers about a matrix.

`maximize_correct` speaks of lists of numbers that meet the constraints of a program.
A caller has a matrix, a list of bounds and an objective, and the rows need not be as
long as the objective.  Here the points are functions of the variables, the left side
of a constraint is a sum over the variables in which missing coefficients are zero and
coefficients of no variable do not occur, and bounds without a row do not occur either.

The smallest value is found as the largest of the negated objective, so an answer of
either search is the answer of the other with the sign and the order turned.
-/
import MarkovPlanning.Proofs.Linear.Maximize
import Mathlib

namespace MarkovPlanning.Linear

variable {K : Type} [Field K] [LinearOrder K] {n : Nat}

/-- The points that some rows and their bounds allow: no variable is negative and no left side
exceeds its bound. -/
structure Allowed (rows : List (List K)) (bounds : List K) (x : Fin n → K) : Prop where
  nonneg : ∀ j, 0 ≤ x j
  bounded : ∀ i (hi : i < rows.length), ∑ j : Fin n, rows[i].getD j 0 * x j ≤ bounds.getD i 0

/-- The value of a point. -/
def valueAt (objective : List K) (x : Fin objective.length → K) : K :=
  ∑ j, objective.get j * x j

/-- What an outcome says about the best of some points, where `worse` tells which of two values is
the worse one. -/
def Outcome.Settles (allowed : (Fin n → K) → Prop) (worth : (Fin n → K) → K)
    (worse : K → K → Prop) : Outcome K → Prop
  | .optimal point value =>
      ∃ x, List.ofFn x = point ∧ allowed x ∧ worth x = value ∧
        ∀ y, allowed y → ¬worse value (worth y)
  | .infeasible => ∀ y, ¬allowed y
  | .unbounded => ∀ bound, ∃ y, allowed y ∧ worse bound (worth y)
  | .pivotLimit => True

/-! ### Lists of numbers as points -/

section
variable {program : Program K}

theorem Program.Feasible.exists_ofFn (hn : program.objective.length = n) {x : List K}
    (h : program.Feasible x) : ∃ f : Fin n → K, List.ofFn f = x := by
  have hlen : x.length = n := h.length.trans hn
  refine ⟨fun j => x.get (j.cast hlen.symm), List.ext_getElem ?_ fun j _ _ => ?_⟩
  · rw [List.length_ofFn, hlen]
  · simp

theorem Program.feasible_ofFn (hn : program.objective.length = n) (f : Fin n → K) :
    program.Feasible (List.ofFn f) ↔ (∀ j, 0 ≤ f j) ∧ ∀ constraint ∈ program.constraints,
      ∑ j : Fin n, constraint.coefficients.getD j 0 * f j ≤ constraint.bound := by
  have hdot : ∀ coefficients : List K, Scalar.dot coefficients (List.ofFn f)
      = ∑ j : Fin n, coefficients.getD j 0 * f j := by
    intro coefficients
    rw [dot_ofFn]
    simp only [List.getD_eq_getElem?_getD]
  constructor
  · intro h
    refine ⟨fun j => h.nonneg _ (List.mem_ofFn.mpr ⟨j, rfl⟩), fun constraint hconstraint => ?_⟩
    rw [← hdot]
    exact h.bounds constraint hconstraint
  · intro h
    refine ⟨by rw [List.length_ofFn, hn], fun v hv => ?_, fun constraint hconstraint => ?_⟩
    · obtain ⟨j, rfl⟩ := List.mem_ofFn.mp hv
      exact h.1 j
    · rw [hdot]
      exact h.2 constraint hconstraint

omit [Field K] [LinearOrder K] in
/-- The constraints of a matrix of which every row has a bound. -/
theorem forall_mem_zipWith {rows : List (List K)} {bounds : List K}
    (hbounds : rows.length ≤ bounds.length) (fallback : K) {p : Constraint K → Prop} :
    (∀ constraint ∈ List.zipWith Constraint.mk rows bounds, p constraint) ↔
      ∀ i (hi : i < rows.length), p ⟨rows[i], bounds.getD i fallback⟩ := by
  simp only [List.forall_mem_iff_getElem, List.getElem_zipWith, List.length_zipWith,
    min_eq_left hbounds]
  refine forall₂_congr fun i hi => ?_
  rw [List.getD_eq_getElem _ _ (hi.trans_le hbounds)]

/-- A correct outcome settles which of the allowed points are best. -/
theorem Outcome.Correct.settles {rows : List (List K)} {bounds : List K} {outcome : Outcome K}
    (h : outcome.Correct program) (hn : program.objective.length = n)
    (hallowed : ∀ f : Fin n → K, program.Feasible (List.ofFn f) ↔ Allowed rows bounds f) :
    outcome.Settles (Allowed rows bounds)
      (fun f : Fin n → K => Scalar.dot program.objective (List.ofFn f)) (· < ·) := by
  cases outcome with
  | optimal point value =>
      obtain ⟨hfeasible, hvalue, hbest⟩ := h
      obtain ⟨f, rfl⟩ := hfeasible.exists_ofFn hn
      refine ⟨f, rfl, (hallowed f).mp hfeasible, hvalue, fun y hy => ?_⟩
      exact not_lt.mpr (hbest _ ((hallowed y).mpr hy))
  | infeasible => exact fun y hy => h _ ((hallowed y).mpr hy)
  | unbounded =>
      intro bound
      obtain ⟨x, hx, hlt⟩ := h bound
      obtain ⟨f, rfl⟩ := hx.exists_ofFn hn
      exact ⟨f, (hallowed f).mp hx, hlt⟩
  | pivotLimit => exact trivial

end

/-! ### The smallest value -/

/-- The same outcome about the negated values. -/
def Outcome.negated : Outcome K → Outcome K
  | .optimal point value => .optimal point (-value)
  | .infeasible => .infeasible
  | .unbounded => .unbounded
  | .pivotLimit => .pivotLimit

theorem outcome_minimize (settings : Settings K) (program : Program K) :
    (minimize settings program).outcome = (maximize settings { program with
      objective := program.objective.map (-·) }).outcome.negated := by
  unfold minimize
  cases hfound : (maximize settings { program with
      objective := program.objective.map (-·) }).outcome <;> simp only [hfound, Outcome.negated]

variable [IsStrictOrderedRing K]

/-- What is largest of the negated values is smallest of the values. -/
theorem Outcome.Settles.negated {allowed : (Fin n → K) → Prop} {worth : (Fin n → K) → K}
    {outcome : Outcome K} (h : outcome.Settles allowed (fun x => -worth x) (· < ·)) :
    outcome.negated.Settles allowed worth (· > ·) := by
  cases outcome with
  | optimal point value =>
      obtain ⟨x, hpoint, hx, hvalue, hbest⟩ := h
      refine ⟨x, hpoint, hx, by rw [← hvalue, neg_neg], fun y hy hlt => hbest y hy ?_⟩
      exact lt_neg.mp hlt
  | infeasible => exact h
  | unbounded =>
      intro bound
      obtain ⟨y, hy, hlt⟩ := h (-bound)
      exact ⟨y, hy, neg_lt_neg_iff.mp hlt⟩
  | pivotLimit => exact trivial

/-! ### Both searches -/

variable {settings : Settings K} {objective : List K} {rows : List (List K)} {bounds : List K}

/-- The largest value of a program with the constraints of a matrix. -/
theorem maximize_settles (htol : settings.tolerance = 0) (hbounds : rows.length ≤ bounds.length)
    {program : Program K} (hn : program.objective.length = n)
    (hconstraints : program.constraints = List.zipWith Constraint.mk rows bounds) :
    (maximize settings program).outcome.Settles (Allowed rows bounds)
      (fun x : Fin n → K => ∑ j : Fin n, program.objective.getD j 0 * x j) (· < ·) := by
  have hallowed : ∀ f : Fin n → K, program.Feasible (List.ofFn f) ↔ Allowed rows bounds f := by
    intro f
    rw [Program.feasible_ofFn hn, hconstraints, forall_mem_zipWith hbounds 0]
    exact ⟨fun h => ⟨h.1, h.2⟩, fun h => ⟨h.nonneg, h.bounded⟩⟩
  have h := (maximize_correct htol program).settles hn hallowed
  simpa only [dot_ofFn, ← List.getD_eq_getElem?_getD] using h

/-- **Both searches answer right about a matrix**: an optimum is an allowed point with the value
told, and none is better; `infeasible` says that no point is allowed, and `unbounded` that some
are as good as one likes. -/
theorem optimize_settles (htol : settings.tolerance = 0) (objective : List K)
    (hbounds : rows.length ≤ bounds.length) :
    (maximize settings (.ofMatrix objective rows bounds)).outcome.Settles
        (Allowed rows bounds) (valueAt objective) (· < ·) ∧
      (minimize settings (.ofMatrix objective rows bounds)).outcome.Settles
        (Allowed rows bounds) (valueAt objective) (· > ·) := by
  have hworth : valueAt objective
      = fun x => ∑ j : Fin objective.length, objective.getD j 0 * x j := by
    funext x
    refine Finset.sum_congr rfl fun j _ => ?_
    rw [List.get_eq_getElem, List.getD_eq_getElem _ _ j.isLt]
  have hnegated : (fun x => -valueAt objective x)
      = fun x => ∑ j : Fin objective.length, (objective.map (-·)).getD j 0 * x j := by
    funext x
    rw [hworth, ← Finset.sum_neg_distrib]
    refine Finset.sum_congr rfl fun j _ => ?_
    rw [← neg_mul, ← neg_zero, List.getD_map, neg_zero]
  constructor
  · rw [hworth]
    exact maximize_settles htol hbounds rfl rfl
  · rw [outcome_minimize]
    refine Outcome.Settles.negated ?_
    rw [hnegated]
    exact maximize_settles htol hbounds (List.length_map _) rfl

deriving instance DecidableEq for Outcome

/-- The sum of two variables is one, by two constraints; the first variable is at most a quarter.
One row is too long, one too short, and a bound is left over. -/
def balanced : Program ℚ :=
  .ofMatrix [1, -1] [[1, 1, 7], [-1, -1], [1]] [1, -1, 1/4, -5]

theorem optimize_settles_balanced :
    let settings : Settings ℚ := { maxPivots := 20, tolerance := 0 }
    (maximize settings balanced).outcome = .optimal [1/4, 3/4] (-1/2) ∧
      (minimize settings balanced).outcome = .optimal [0, 1] (-1) ∧
      (maximize settings balanced).outcome.Settles
        (Allowed [[1, 1, 7], [-1, -1], [1]] [1, -1, 1/4, -5]) (valueAt [1, -1]) (· < ·) ∧
      (minimize settings balanced).outcome.Settles
        (Allowed [[1, 1, 7], [-1, -1], [1]] [1, -1, 1/4, -5]) (valueAt [1, -1]) (· > ·) := by
  intro settings
  refine ⟨by decide +kernel, by decide +kernel, ?_⟩
  exact optimize_settles rfl [1, -1] (by decide)

end MarkovPlanning.Linear
