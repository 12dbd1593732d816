import QuantumCircuit.Proofs.Decimal.Reading
import QuantumCircuit.Proofs.Operation.Adjoint

/-!
# Signs of floating-point numbers

Changing the sign of a number changes nothing else, also of zeros, of infinities and of what is not
a number, and neither does multiplying by minus one.
-/

namespace QuantumCircuit.Binary64

open Float.Model UnpackedFloat

theorem unpacked_neg_neg (u : UnpackedFloat) : u.neg.neg = u := by
  cases u with
  | notANumber => rfl
  | infinity s => cases s <;> rfl
  | zero s => cases s <;> rfl
  | finite s m e pos => cases s <;> rfl

/-- The parts of a number with the other sign are unpacked as they were packed. -/
theorem unpack_pack_neg (v : Float.Model) :
    (Float.Model.pack v.unpack.neg).unpack = v.unpack.neg := by
  cases unpacked : v.unpack with
  | notANumber => rfl
  | infinity s => cases s <;> rfl
  | zero s => cases s <;> rfl
  | finite s m e pos => exact unpack_pack (canonical_of_unpack unpacked) (-s) pos

/-- Two signs cancel. -/
theorem float_neg_neg (x : Float) : - -x = x := by
  change Float.ofModel (.pack (Float.Model.pack x.toModel.unpack.neg).unpack.neg) = x
  rw [unpack_pack_neg, unpacked_neg_neg]
  exact Float.ofBits_toBits x

theorem unpack_neg_one : (-Scalar.one : Float).toModel.unpack =
    .finite .negative (2 ^ 52) (-52) (by decide) :=
  rfl

theorem mul_negative (s : Sign) : s * .negative = -s := by
  cases s <;> rfl

/-- The product with minus one is exact, so that only the sign changes. -/
theorem mul_neg_one_eq (v : Float.Model) : UnpackedFloat.mul Format.binary64 v.unpack
    (.finite .negative (2 ^ 52) (-52) (by decide)) = v.unpack.neg := by
  cases unpacked : v.unpack with
  | notANumber => rfl
  | infinity s => cases s <;> rfl
  | zero s => cases s <;> rfl
  | finite s m e pos =>
      have canonical := canonical_of_unpack unpacked
      have value : ((m <<< 52 : ℕ) : ℚ) * 2 ^ (e + -52) = m * 2 ^ e := shiftLeft_mul_zpow m 52 e
      have rounds : RoundsTo m e ((m <<< 52 : ℕ) * 2 ^ (e + -52)) := by
        rw [value]
        exact roundsTo_self canonical
      have fine : e + -52 ≤
          Format.binary64.targetExponent (totalExponent (m <<< 52) (e + -52)) := by
        rw [targetExponent_eq, log2_shiftLeft pos]
        omega
      rw [UnpackedFloat.mul, mul_negative, ← Nat.shiftLeft_eq]
      exact roundWithAccuracy_exact rounds canonical fine (-s)

/-- Signs of floating-point numbers are changed without rounding. -/
theorem exactSigns_float : Scalar.ExactSigns Float where
  neg_neg := float_neg_neg
  mul_neg_one x := by
    change Float.ofModel (.pack (UnpackedFloat.mul Format.binary64 x.toModel.unpack
      (-Scalar.one : Float).toModel.unpack)) = _
    rw [unpack_neg_one, mul_neg_one_eq]
    rfl
  neg_one_ne_zero := by decide +kernel

end QuantumCircuit.Binary64
