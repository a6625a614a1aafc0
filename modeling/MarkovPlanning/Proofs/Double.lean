/-
Overflow and order in double precision.

An operation on floating-point numbers unpacks its operands, so what it does to an infinity
or to what is no number is a matter of cases: a value is an infinity, no number, a zero or
another finite number.

What matters to a search is that an infinite change is not lost among the others: the
distance of an infinite value from a finite one is infinite (`abs_sub_eq_infinity`), and the
greatest of several changes is infinite if one of them is (`greater_infinity`,
`infinity_greater`).  A change that is no number is lost, and no number is what is left when
an infinity is taken away from itself.

Whatever is a number is in order with every other number, infinities included, so it can be
brought into the unit interval (`clamp01_mem`).  The order is that of the classes of numbers from
the infinity below to the infinity above, and among finite numbers of one sign that of exponents
and mantissas (`place`), so it is transitive (`Scalar.le_trans`).

A product is the same whichever factor comes first (`Scalar.mul_comm`).
-/
import MarkovPlanning.Scalar
import Mathlib

namespace MarkovPlanning.Scalar

open Float.Model

/-- What is above all numbers. -/
def infinity : Float := 1 / 0

variable {x y z : Float}

/-! ### Unpacking -/

theorem eq_of_unpack_eq (h : x.toModel.unpack = y.toModel.unpack) : x = y := by
  have hbits := (UnpackedFloat.unpack_inj_of_valid x.toModel.valid y.toModel.valid).mp h
  obtain ⟨⟨⟨bits⟩, hx⟩⟩ := x
  obtain ⟨⟨⟨bits'⟩, hy⟩⟩ := y
  obtain rfl : bits = bits' := hbits
  rfl

theorem unpack_infinity : infinity.toModel.unpack = .infinity .positive := rfl

theorem sub_eq (x y : Float) :
    x - y = .ofModel (pack (.sub .binary64 x.toModel.unpack y.toModel.unpack)) := rfl

theorem lt_iff : x < y ↔ x.toModel.unpack.lt y.toModel.unpack = true := by
  show decide _ = true ↔ _
  rw [decide_eq_true_iff]
  rfl

theorem le_iff : x ≤ y ↔ x.toModel.unpack.le y.toModel.unpack = true := by
  show decide _ = true ↔ _
  rw [decide_eq_true_iff]
  rfl

/-- Whatever compares with a value is a number. -/
theorem le_self_iff : x ≤ x ↔ x.toModel.unpack ≠ .notANumber := by
  rw [le_iff]
  unfold UnpackedFloat.le
  cases x.toModel.unpack with
  | notANumber => exact iff_of_false Bool.false_ne_true fun h => h rfl
  | infinity sign => exact iff_of_true (by cases sign <;> rfl) nofun
  | zero sign => exact iff_of_true rfl nofun
  | finite sign mantissa exponent hpos =>
      exact iff_of_true (by cases sign <;> simp [UnpackedFloat.compare]) nofun

theorem le_self_of_lt (h : x < y) : y ≤ y := by
  rw [le_self_iff]
  intro hy
  rw [lt_iff, hy] at h
  cases hx : x.toModel.unpack with
  | notANumber => rw [hx] at h; cases h
  | infinity sign => rw [hx] at h; cases h
  | zero sign => rw [hx] at h; cases h
  | finite sign mantissa exponent hpos => rw [hx] at h; cases h

/-! ### Infinite values -/

theorem isFinite_iff : isFinite x = true ↔ x.toModel.unpack.isFinite = true := by
  show isZero (x - x) = true ↔ _
  rw [sub_eq]
  cases x.toModel.unpack with
  | notANumber => exact iff_of_false (by decide) Bool.false_ne_true
  | infinity sign => exact iff_of_false (by cases sign <;> decide) Bool.false_ne_true
  | zero sign => exact iff_of_true (by cases sign <;> decide) rfl
  | finite sign mantissa exponent hpos =>
      refine iff_of_true ?_ rfl
      have hnothing : UnpackedFloat.sub .binary64 (.finite sign mantissa exponent hpos)
          (.finite sign mantissa exponent hpos) = .zero .positive := by
        simp only [UnpackedFloat.sub, Int.sub_self, UnpackedFloat.normalize]
        rfl
      rw [hnothing]
      decide

/-- An infinite value is infinitely far from a finite one. -/
theorem abs_sub_eq_infinity (hx : x ≤ x) (hinfinite : ¬ isFinite x = true)
    (hy : isFinite y = true) : abs (x - y) = infinity := by
  rw [isFinite_iff] at hinfinite hy
  rw [le_self_iff] at hx
  rw [sub_eq]
  cases hunpack : x.toModel.unpack with
  | notANumber => exact absurd hunpack hx
  | zero sign => exact absurd (congrArg UnpackedFloat.isFinite hunpack) hinfinite
  | finite sign mantissa exponent hpos =>
      exact absurd (congrArg UnpackedFloat.isFinite hunpack) hinfinite
  | infinity sign =>
      have hsub : UnpackedFloat.sub .binary64 (.infinity sign) y.toModel.unpack
          = .infinity sign := by
        cases hy' : y.toModel.unpack with
        | notANumber => rw [hy'] at hy; cases hy
        | infinity sign' => rw [hy'] at hy; cases hy
        | zero sign' => rfl
        | finite sign' mantissa exponent hpos => rfl
      rw [hsub]
      cases sign <;> rfl

/-- What is not below the infinity above all numbers is this infinity, or no number. -/
theorem eq_infinity_of_not_lt (hx : x ≤ x) (h : ¬ x < infinity) : x = infinity := by
  rw [le_self_iff] at hx
  rw [lt_iff, unpack_infinity] at h
  apply eq_of_unpack_eq
  rw [unpack_infinity]
  cases hunpack : x.toModel.unpack with
  | notANumber => exact absurd hunpack hx
  | zero sign => rw [hunpack] at h; exact absurd rfl h
  | finite sign mantissa exponent hpos =>
      rw [hunpack] at h
      exact absurd (by cases sign <;> rfl) h
  | infinity sign =>
      rw [hunpack] at h
      cases sign with
      | positive => rfl
      | negative => exact absurd rfl h

theorem not_infinity_lt : ¬ infinity < x := by
  rw [lt_iff, unpack_infinity]
  cases x.toModel.unpack with
  | notANumber => exact Bool.false_ne_true
  | zero sign => exact Bool.false_ne_true
  | finite sign mantissa exponent hpos => exact Bool.false_ne_true
  | infinity sign => cases sign <;> exact Bool.false_ne_true

theorem greater_infinity (x : Float) : greater x infinity = infinity := by
  show (if x < infinity then infinity else if x ≤ x then x else infinity) = infinity
  by_cases hlt : x < infinity
  · exact if_pos hlt
  · rw [if_neg hlt]
    by_cases hx : x ≤ x
    · rw [if_pos hx, eq_infinity_of_not_lt hx hlt]
    · exact if_neg hx

theorem infinity_greater (x : Float) : greater infinity x = infinity := by
  show (if infinity < x then x else if infinity ≤ infinity then infinity else x) = infinity
  rw [if_neg not_infinity_lt]
  exact if_pos (le_self_iff.mpr (unpack_infinity ▸ nofun))

/-! ### Order -/

/-- Values compare the same the other way round. -/
theorem compare_swap (a b : UnpackedFloat) : b.compare a = (a.compare b).map Ordering.swap := by
  have hswap (e f : Int) (m n : Nat) : (compare f e).then (compare n m)
      = ((compare e f).then (compare m n)).swap := by
    rw [Ordering.swap_then, ← Std.OrientedOrd.eq_swap, ← Std.OrientedOrd.eq_swap]
  cases a with
  | notANumber => cases b <;> rfl
  | infinity sign =>
      cases b with
      | infinity sign' => cases sign <;> cases sign' <;> rfl
      | _ => cases sign <;> rfl
  | zero sign =>
      cases b with
      | notANumber | zero => rfl
      | infinity sign' => cases sign' <;> rfl
      | finite sign' mantissa exponent hpos => cases sign' <;> rfl
  | finite sign mantissa exponent hpos =>
      cases b with
      | notANumber => cases sign <;> rfl
      | infinity sign' => cases sign <;> cases sign' <;> rfl
      | zero sign' => cases sign <;> rfl
      | finite sign' mantissa' exponent' hpos' =>
          cases sign <;> cases sign' <;>
            simp [UnpackedFloat.compare, hswap exponent exponent' mantissa mantissa']

/-- Numbers are in order one way or the other. -/
theorem le_of_not_lt (hx : x ≤ x) (hy : y ≤ y) (h : ¬x < y) : y ≤ x := by
  rw [le_self_iff] at hx hy
  rw [lt_iff] at h
  rw [le_iff]
  unfold UnpackedFloat.lt at h
  unfold UnpackedFloat.le
  rw [compare_swap x.toModel.unpack]
  have hsome : x.toModel.unpack.compare y.toModel.unpack ≠ none := by
    unfold UnpackedFloat.compare
    split <;> simp_all
  cases hcompare : x.toModel.unpack.compare y.toModel.unpack with
  | none => exact absurd hcompare hsome
  | some order =>
    rw [hcompare] at h
    cases order <;> simp_all

/-- **A number is brought into the unit interval.** -/
theorem clamp01_mem (hx : x ≤ x) : 0 ≤ clamp01 x ∧ clamp01 x ≤ 1 := by
  show 0 ≤ (if x < 0 then 0 else if 1 < x then 1 else x) ∧
    (if x < 0 then 0 else if 1 < x then 1 else x) ≤ 1
  split
  · exact ⟨by decide, by decide⟩
  · next hnonneg =>
    split
    · exact ⟨by decide, by decide⟩
    · next hle => exact ⟨le_of_not_lt hx (by decide) hnonneg, le_of_not_lt (by decide) hx hle⟩

/-! ### Places in the order -/

/-- The place of a number in the order: its class, and in a class of finite numbers the exponent and
the mantissa. -/
def place : UnpackedFloat → Int × Int × Int
  | .notANumber => (0, 0, 0)
  | .infinity .negative => (-2, 0, 0)
  | .finite .negative mantissa exponent _ => (-1, -exponent, -mantissa)
  | .zero _ => (0, 0, 0)
  | .finite .positive mantissa exponent _ => (1, exponent, mantissa)
  | .infinity .positive => (2, 0, 0)

/-- Places are compared from the left. -/
def comparePlaces : Int × Int × Int → Int × Int × Int → Ordering :=
  compareLex (compareOn (·.1)) (compareLex (compareOn (·.2.1)) (compareOn (·.2.2)))

instance : Std.TransCmp comparePlaces :=
  inferInstanceAs (Std.TransCmp (compareLex _ _))

theorem comparePlaces_eq (a b : Int × Int × Int) :
    comparePlaces a b = (compare a.1 b.1).then ((compare a.2.1 b.2.1).then (compare a.2.2 b.2.2)) :=
  rfl

theorem compare_natCast (m n : Nat) : compare (m : Int) n = compare m n := by
  rcases Nat.lt_trichotomy m n with h | rfl | h
  · rw [Nat.compare_eq_lt.mpr h, Int.compare_eq_lt.mpr (by omega)]
  · simp
  · rw [Nat.compare_eq_gt.mpr h, Int.compare_eq_gt.mpr (by omega)]

theorem compare_neg (m n : Int) : compare (-m) (-n) = (compare m n).swap := by
  rcases Int.lt_trichotomy m n with h | rfl | h
  · rw [Int.compare_eq_lt.mpr h, Int.compare_eq_gt.mpr (by omega)]; rfl
  · simp
  · rw [Int.compare_eq_gt.mpr h, Int.compare_eq_lt.mpr (by omega)]; rfl

/-- Numbers compare as their places do. -/
theorem compare_eq_comparePlaces {a b : UnpackedFloat} (ha : a ≠ .notANumber)
    (hb : b ≠ .notANumber) : a.compare b = some (comparePlaces (place a) (place b)) := by
  cases a with
  | notANumber => exact absurd rfl ha
  | infinity sign =>
      cases b with
      | notANumber => exact absurd rfl hb
      | infinity sign' => cases sign <;> cases sign' <;> rfl
      | zero sign' => cases sign <;> rfl
      | finite sign' m e hpos => cases sign <;> cases sign' <;> rfl
  | zero sign =>
      cases b with
      | notANumber => exact absurd rfl hb
      | infinity sign' => cases sign' <;> rfl
      | zero sign' => rfl
      | finite sign' m e hpos => cases sign' <;> rfl
  | finite sign m e hpos =>
      cases b with
      | notANumber => exact absurd rfl hb
      | infinity sign' => cases sign <;> cases sign' <;> rfl
      | zero sign' => cases sign <;> rfl
      | finite sign' m' e' hpos' =>
          cases sign with
          | negative =>
              cases sign' with
              | negative =>
                  simp [UnpackedFloat.compare, comparePlaces_eq, place, compare_neg,
                    compare_natCast, Ordering.swap_then]
              | positive => rfl
          | positive =>
              cases sign' with
              | negative => rfl
              | positive =>
                  simp [UnpackedFloat.compare, comparePlaces_eq, place, compare_natCast]

theorem le_self_of_le (h : x ≤ y) : x ≤ x ∧ y ≤ y := by
  rw [le_iff] at h
  rw [le_self_iff, le_self_iff]
  constructor
  · intro hx
    rw [hx] at h
    cases h
  · intro hy
    rw [hy] at h
    cases hx : x.toModel.unpack <;> rw [hx] at h <;> cases h

theorem le_iff_comparePlaces (hx : x ≤ x) (hy : y ≤ y) :
    x ≤ y ↔ (comparePlaces (place x.toModel.unpack) (place y.toModel.unpack)).isLE = true := by
  rw [le_self_iff] at hx hy
  rw [le_iff, UnpackedFloat.le, compare_eq_comparePlaces hx hy]
  rfl

/-- **The order of values is transitive**, values that are no numbers included. -/
protected theorem le_trans (hxy : x ≤ y) (hyz : y ≤ z) : x ≤ z := by
  obtain ⟨hx, hy⟩ := le_self_of_le hxy
  have hz := (le_self_of_le hyz).2
  rw [le_iff_comparePlaces hx hy] at hxy
  rw [le_iff_comparePlaces hy hz] at hyz
  rw [le_iff_comparePlaces hx hz]
  exact Std.TransCmp.isLE_trans hxy hyz

protected theorem le_of_lt (h : x < y) : x ≤ y := by
  rw [lt_iff] at h
  rw [le_iff, UnpackedFloat.le]
  rw [UnpackedFloat.lt, beq_iff_eq] at h
  rw [h]
  rfl

theorem not_le_of_lt (h : x < y) : ¬y ≤ x := by
  rw [lt_iff, UnpackedFloat.lt, beq_iff_eq] at h
  rw [le_iff, UnpackedFloat.le, compare_swap x.toModel.unpack, h]
  exact Bool.false_ne_true

/-- Values are equal, whatever the sign of a zero, if they are in order both ways. -/
theorem beq_iff : (x == y) = true ↔ x ≤ y ∧ y ≤ x := by
  have hbeq : (x == y) = (x.toModel.unpack.compare y.toModel.unpack == some .eq) := rfl
  rw [hbeq, le_iff, le_iff, UnpackedFloat.le, UnpackedFloat.le, compare_swap x.toModel.unpack]
  cases x.toModel.unpack.compare y.toModel.unpack with
  | none => exact iff_of_false Bool.false_ne_true fun h => Bool.false_ne_true h.1
  | some order => cases order <;> decide

/-! ### Products -/

theorem sign_mul_comm (s t : UnpackedFloat.Sign) : s * t = t * s := by
  cases s <;> cases t <;> rfl

theorem unpacked_mul_comm (format : Format) (a b : UnpackedFloat) :
    UnpackedFloat.mul format a b = UnpackedFloat.mul format b a := by
  cases a <;> cases b <;>
    simp only [UnpackedFloat.mul, sign_mul_comm, Nat.mul_comm, Int.add_comm]

/-- **A product does not depend on the order of its factors**, down to the last bit. -/
protected theorem mul_comm (x y : Float) : x * y = y * x := by
  show Float.ofModel (pack (UnpackedFloat.mul .binary64 x.toModel.unpack y.toModel.unpack)) =
    Float.ofModel (pack (UnpackedFloat.mul .binary64 y.toModel.unpack x.toModel.unpack))
  rw [unpacked_mul_comm]

end MarkovPlanning.Scalar
