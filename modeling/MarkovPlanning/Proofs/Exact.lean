/-
Arithmetic without rounding.

The library computes over any `Scalar`.  Here the operations are read as those of an
ordered field, which is what makes statements about optimality possible: sums may be
rearranged, comparisons are total, and a tolerance of zero means what it says.

The operations of the reading are the field's own, by definition, so that a
statement can mix the program's terms with sums over finite types and the usual
tactics still see one addition and one order.
-/
import MarkovPlanning.Scalar
import Mathlib

namespace MarkovPlanning.Scalar

variable {K : Type} [Field K] [LinearOrder K]

/-- The operations of an ordered field. -/
instance ofField : Scalar K where
  decidableLT := inferInstance
  decidableLE := inferInstance
  least? := none

theorem agrees_iff {x y : K} : agrees x y = true ↔ x = y := by
  simp only [agrees, Bool.and_eq_true, decide_eq_true_eq]
  exact le_antisymm_iff.symm

@[simp]
theorem isZero_iff {x : K} : isZero x = true ↔ x = 0 := agrees_iff

@[simp]
theorem isFinite_eq_true (x : K) : isFinite x = true := by
  unfold isFinite
  rw [isZero_iff, sub_self]

theorem abs_eq [IsStrictOrderedRing K] (x : K) : abs x = |x| := by
  unfold abs
  split
  · rename_i h
    exact (abs_of_neg h).symm
  · rename_i h
    exact (abs_of_nonneg (not_lt.mp h)).symm

theorem greater_eq (x y : K) : greater x y = max x y := by
  unfold greater
  split
  · rename_i h
    exact (max_eq_right h.le).symm
  · rename_i h
    rw [if_pos (le_refl x)]
    exact (max_eq_left (not_lt.mp h)).symm

theorem lesser_eq (x y : K) : lesser x y = min x y := by
  unfold lesser
  split
  · rename_i h
    exact (min_eq_right h.le).symm
  · rename_i h
    rw [if_pos (le_refl x)]
    exact (min_eq_left (not_lt.mp h)).symm

/-- What lies in the unit interval is left alone. -/
theorem clamp01_eq_self {x : K} (h0 : 0 ≤ x) (h1 : x ≤ 1) : clamp01 x = x := by
  unfold clamp01
  rw [if_neg (not_lt.mpr h0), if_neg (not_lt.mpr h1)]

theorem clamp01_nonneg [IsStrictOrderedRing K] (x : K) : 0 ≤ clamp01 x := by
  unfold clamp01
  split
  · exact le_refl _
  · rename_i h
    split
    · exact zero_le_one
    · exact not_lt.mp h

theorem clamp01_le_one [IsStrictOrderedRing K] (x : K) : clamp01 x ≤ 1 := by
  unfold clamp01
  split
  · exact zero_le_one
  · split
    · exact le_refl _
    · rename_i h
      exact not_lt.mp h

/-! ### Sums

A sum that is added up from the left is the sum, however it is added up.
-/

theorem sum_eq (xs : List K) : sum xs = xs.sum := by
  unfold sum
  rw [List.sum_eq_foldl]

omit [LinearOrder K] in
/-- A fold that adds a term for every member is the sum of the terms. -/
theorem foldl_add_eq {β : Type} (f : β → K) (xs : List β) (x : K) :
    xs.foldl (fun total item => total + f item) x = x + (xs.map f).sum := by
  induction xs generalizing x with
  | nil => simp
  | cons item rest ih => rw [List.foldl_cons, ih, List.map_cons, List.sum_cons, add_assoc]

@[simp]
theorem dot_nil_left (ys : List K) : dot [] ys = 0 := rfl

@[simp]
theorem dot_nil_right (xs : List K) : dot xs [] = 0 := by
  simp [dot, sum]

@[simp]
theorem dot_cons (x y : K) (xs ys : List K) : dot (x :: xs) (y :: ys) = x * y + dot xs ys := by
  unfold dot
  rw [sum_eq, sum_eq, List.zipWith_cons_cons, List.sum_cons]

theorem dot_append {xs ys : List K} (h : xs.length = ys.length) (xs' ys' : List K) :
    dot (xs ++ xs') (ys ++ ys') = dot xs ys + dot xs' ys' := by
  unfold dot
  rw [sum_eq, sum_eq, sum_eq, List.zipWith_append h, List.sum_append]

end MarkovPlanning.Scalar
