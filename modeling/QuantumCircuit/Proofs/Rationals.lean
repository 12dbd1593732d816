import Mathlib.Algebra.Order.Field.Rat
import Mathlib.Data.Rat.Floor
import QuantumCircuit.Proofs.Operation.Instances

/-!
# Rational scalars

Every finite floating-point number is a rational number, and over the rational numbers the
arithmetic of parameters and phases is exact.  Half a turn is the value of the number that the
floating-point format has for it, so it is rational as well.
-/

namespace QuantumCircuit

namespace Binary64

/-- The value of the parts of a finite number. -/
def Parts.value (p : Parts) : ℚ :=
  (if p.negative then -1 else 1) * p.significand * 2 ^ p.exponent

/-- The value of a finite number; infinities and not-a-number count as zero. -/
def value (x : Float) : ℚ :=
  ((parts? x).map Parts.value).getD 0

example : value Scalar.pi = 7074237752028440 / 2 ^ 51 := by decide +kernel

end Binary64

instance : Scalar ℚ where
  ofNat n := n
  pi := Binary64.value Scalar.pi
  abs x := |x|
  lt x y := decide (x < y)
  le x y := decide (x ≤ y)
  isFinite _ := true
  floorRemainder x y := x - |y| * ⌊x / |y|⌋

theorem scalar_one_rat : (Scalar.one : ℚ) = 1 :=
  Nat.cast_one

theorem isZero_rat_iff {x : ℚ} : Scalar.isZero x = true ↔ x = 0 := by
  have zero : (Scalar.zero : ℚ) = 0 := Nat.cast_zero
  rw [Scalar.isZero, zero, beq_iff_eq]

/-- Over the rational numbers nothing is rounded. -/
theorem exactSums_rat : Scalar.ExactSums ℚ where
  neg_neg := neg_neg
  mul_neg_one x := by rw [scalar_one_rat, mul_neg_one]
  neg_one_ne_zero := by
    rw [← Bool.not_eq_true, isZero_rat_iff, scalar_one_rat]
    exact neg_ne_zero.mpr one_ne_zero
  neg_add x y := neg_add x y
  neg_mul x y := neg_mul x y
  add_right_comm x y z := add_right_comm x y z
  isZero_neg x := by rw [Bool.eq_iff_iff, isZero_rat_iff, isZero_rat_iff, neg_eq_zero]

end QuantumCircuit
