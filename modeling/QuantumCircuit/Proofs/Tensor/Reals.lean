import Mathlib.Analysis.SpecialFunctions.Trigonometric.Basic
import QuantumCircuit.GateMatrix

/-!
# Real scalars

Over the real numbers the arithmetic of parameters and matrices is exact.  The complex numbers of
the gate matrices then have the laws of conjugation, and conjugating a number of given radius and
angle turns the angle round.
-/

namespace QuantumCircuit

noncomputable instance : Scalar ℝ where
  ofNat n := n
  pi := Real.pi
  abs x := |x|
  lt x y := decide (x < y)
  le x y := decide (x ≤ y)
  isFinite _ := true
  floorRemainder x y := x - |y| * ⌊x / |y|⌋

noncomputable instance : TrigScalar ℝ where
  half x := x / 2
  sqrtHalf := √(1 / 2)
  sin := Real.sin
  cos := Real.cos

open TrigScalar

/-! ## Angles -/

@[simp]
theorem half_neg (x : ℝ) : half (-x) = -half x :=
  neg_div 2 x

@[simp]
theorem cos_neg (x : ℝ) : cos (-x) = cos x :=
  Real.cos_neg x

@[simp]
theorem sin_neg (x : ℝ) : sin (-x) = -sin x :=
  Real.sin_neg x

@[simp]
theorem scalar_zero_eq : (Scalar.zero : ℝ) = 0 :=
  Nat.cast_zero

namespace Complex

/-! ## Complex numbers -/

/-- The conjugate of a complex number. -/
def conj (z : Complex ℝ) : Complex ℝ :=
  ⟨z.re, -z.im⟩

/-- The complex number that a pair of real numbers stands for. -/
def value (z : Complex ℝ) : ℂ :=
  ⟨z.re, z.im⟩

theorem value_conj (z : Complex ℝ) : z.conj.value = star z.value :=
  rfl

@[simp]
theorem value_zero : (zero : Complex ℝ).value = 0 :=
  Complex.ext Nat.cast_zero Nat.cast_zero

@[simp]
theorem value_one : (one : Complex ℝ).value = 1 :=
  Complex.ext Nat.cast_one Nat.cast_zero

@[simp]
theorem value_i : (i : Complex ℝ).value = Complex.I :=
  Complex.ext Nat.cast_zero Nat.cast_one

@[simp]
theorem value_neg (z : Complex ℝ) : (-z).value = -z.value :=
  rfl

@[simp]
theorem value_mul (z w : Complex ℝ) : (z * w).value = z.value * w.value :=
  rfl

@[simp]
theorem value_ofReal (x : ℝ) : (ofReal x).value = x :=
  Complex.ext rfl Nat.cast_zero

@[simp]
theorem value_ofImag (x : ℝ) : (ofImag x).value = x * Complex.I :=
  Complex.ext (by simp [value, ofImag]) (by simp [value, ofImag])

/-- A number of given radius and angle in the form of Euler. -/
theorem value_ofPolar (radius angle : ℝ) :
    (ofPolar radius angle).value = radius * Complex.exp (angle * Complex.I) := by
  rw [Complex.exp_mul_I, ← Complex.ofReal_cos, ← Complex.ofReal_sin]
  apply Complex.ext
  · simp [value, ofPolar, cos, -Complex.ofReal_cos, -Complex.ofReal_sin]
  · simp [value, ofPolar, sin, -Complex.ofReal_cos, -Complex.ofReal_sin]

theorem ext_parts {z w : Complex ℝ} (re : z.re = w.re) (im : z.im = w.im) : z = w := by
  cases z
  cases w
  exact congr (congrArg Complex.mk re) im

noncomputable instance : HasDistribNeg (Complex ℝ) where
  neg_neg z := ext_parts (neg_neg z.re) (neg_neg z.im)
  neg_mul z w := by
    apply ext_parts
    · change -z.re * w.re - -z.im * w.im = -(z.re * w.re - z.im * w.im)
      ring
    · change -z.re * w.im + -z.im * w.re = -(z.re * w.im + z.im * w.re)
      ring
  mul_neg z w := by
    apply ext_parts
    · change z.re * -w.re - z.im * -w.im = -(z.re * w.re - z.im * w.im)
      ring
    · change z.re * -w.im + z.im * -w.re = -(z.re * w.im + z.im * w.re)
      ring

@[simp]
theorem conj_zero : conj zero = zero :=
  ext_parts rfl (by simp [conj, zero])

@[simp]
theorem conj_one : conj one = one :=
  ext_parts rfl (by simp [conj, one])

@[simp]
theorem conj_i : conj i = -i :=
  ext_parts (by change (Scalar.zero : ℝ) = -Scalar.zero; simp) rfl

@[simp]
theorem conj_neg (z : Complex ℝ) : conj (-z) = -conj z :=
  rfl

@[simp]
theorem conj_mul (z w : Complex ℝ) : conj (z * w) = conj z * conj w := by
  apply ext_parts
  · change z.re * w.re - z.im * w.im = z.re * w.re - -z.im * -w.im
    ring
  · change -(z.re * w.im + z.im * w.re) = z.re * -w.im + -z.im * w.re
    ring

@[simp]
theorem conj_ofReal (x : ℝ) : conj (ofReal x) = ofReal x :=
  ext_parts rfl (by simp [conj, ofReal])

@[simp]
theorem conj_ofImag (x : ℝ) : conj (ofImag x) = ofImag (-x) :=
  rfl

@[simp]
theorem conj_ofPolar (radius angle : ℝ) :
    conj (ofPolar radius angle) = ofPolar radius (-angle) := by
  apply ext_parts
  · change radius * cos angle = radius * cos (-angle)
    rw [cos_neg]
  · change -(radius * sin angle) = radius * sin (-angle)
    rw [sin_neg, mul_neg]

/-! ## Radius and angle -/

theorem ofPolar_neg (radius angle : ℝ) : ofPolar (-radius) angle = -ofPolar radius angle :=
  ext_parts (neg_mul radius (cos angle)) (neg_mul radius (sin angle))

/-- Half a turn changes the sign. -/
theorem ofPolar_add_pi (radius angle : ℝ) :
    ofPolar radius (angle + Scalar.pi) = -ofPolar radius angle := by
  apply ext_parts
  · change radius * Real.cos (angle + Real.pi) = -(radius * Real.cos angle)
    rw [Real.cos_add_pi, mul_neg]
  · change radius * Real.sin (angle + Real.pi) = -(radius * Real.sin angle)
    rw [Real.sin_add_pi, mul_neg]

/-- Half a turn back changes the sign as well. -/
theorem ofPolar_sub_pi (radius angle : ℝ) :
    ofPolar radius (angle - Scalar.pi) = -ofPolar radius angle := by
  have back := ofPolar_add_pi radius (angle - Scalar.pi)
  rw [sub_add_cancel] at back
  rw [back, neg_neg]

end Complex

end QuantumCircuit
