import QuantumCircuit.Proofs.Decimal.Signs
import QuantumCircuit.Proofs.Rationals

/-!
# Products that are rounded to zero

The product of two numbers other than zero is rounded to zero exactly if they are finite and their
exact product is at most half of the least positive number.
-/

namespace QuantumCircuit.Binary64

open Float.Model UnpackedFloat

/-! ## Rounding to zero -/

namespace Locates

variable {em : ExtendedMantissa} {x : ℚ}

/-- A value is at most one half away from what it is rounded to. -/
theorem roundedMantissa_bounds (located : Locates em x) :
    2 * x ≤ 2 * em.roundedMantissa + 1 ∧ 2 * (em.roundedMantissa : ℚ) ≤ 2 * x + 1 := by
  cases located with
  | @exact n _ equal =>
      change 2 * x ≤ 2 * (n : ℚ) + 1 ∧ 2 * (n : ℚ) ≤ 2 * x + 1
      constructor <;> linarith
  | @low n _ above below =>
      change 2 * x ≤ 2 * (n : ℚ) + 1 ∧ 2 * (n : ℚ) ≤ 2 * x + 1
      constructor <;> linarith
  | @middle n _ equal =>
      change 2 * x ≤ 2 * ((n + n % 2 : ℕ) : ℚ) + 1 ∧ 2 * ((n + n % 2 : ℕ) : ℚ) ≤ 2 * x + 1
      rw [equal]
      norm_cast
      omega
  | @high n _ above below =>
      change 2 * x ≤ 2 * ((n + 1 : ℕ) : ℚ) + 1 ∧ 2 * ((n + 1 : ℕ) : ℚ) ≤ 2 * x + 1
      push_cast
      constructor <;> linarith

/-- A value that is not negative is rounded to zero exactly if it is at most one half. -/
theorem roundedMantissa_eq_zero_iff (located : Locates em x) (nonneg : 0 ≤ x) :
    em.roundedMantissa = 0 ↔ 2 * x ≤ 1 := by
  constructor
  · intro zero
    have bounds := located.roundedMantissa_bounds.1
    rw [zero] at bounds
    simpa using bounds
  · intro small
    apply located.roundedMantissa_eq
    · push_cast
      linarith
    · push_cast
      linarith
    · intro odd
      contradiction

end Locates

section Aiming

variable {n k r : Nat} {f : Int}

/-- In units of the exponent that is aimed at, a value has 53 bits before the point. -/
theorem div_lt_of_target
    (target : Format.binary64.targetExponent (totalExponent n f) = f + k) :
    (n : ℚ) / 2 ^ k < 2 ^ 53 := by
  rw [targetExponent_eq] at target
  rw [div_lt_iff₀ (by positivity), ← pow_add]
  have bits : n < 2 ^ (53 + k) :=
    Nat.lt_log2_self.trans_le (Nat.pow_le_pow_right two_pos (by omega))
  exact_mod_cast bits

/-- It has less bits only if the exponent is the least. -/
theorem le_div_of_target (pos : 0 < n)
    (target : Format.binary64.targetExponent (totalExponent n f) = f + k) :
    2 ^ 52 ≤ (n : ℚ) / 2 ^ k ∨ f + k = -1074 := by
  rw [targetExponent_eq] at target
  by_cases least : f + k = -1074
  · exact .inr least
  · left
    rw [le_div_iff₀ (by positivity), ← pow_add]
    have bits : 2 ^ (52 + k) ≤ n :=
      (Nat.pow_le_pow_right two_pos (by omega)).trans (Nat.log2_self_le (Nat.ne_of_gt pos))
    exact_mod_cast bits

/-- A significand that is rounded to zero gives zero. -/
theorem roundWithAccuracy_eq_zero (s : Sign)
    (target : Format.binary64.targetExponent (totalExponent n f) = f + k)
    (rounded : (ExtendedMantissa.ofMantissaAndAccuracy n .exact >>> k).roundedMantissa = 0)
    (least : f + k = -1074) : roundWithAccuracy Format.binary64 s n f .exact = .zero s := by
  have second : Format.binary64.targetExponent (totalExponent 0 (f + k)) = f + k + (0 : ℕ) := by
    rw [targetExponent_eq, Nat.log2_zero, least]
    rfl
  rw [roundWithAccuracy, shiftToTargetExponent_eq .exact target]
  simp only [rounded, shiftToTargetExponent_eq .exact second]
  exact dif_pos rfl

/-- A significand that is rounded to another one gives parts of a number; if the rounded significand
has 54 bits, it is halved. -/
theorem exists_roundWithAccuracy_eq (s : Sign)
    (target : Format.binary64.targetExponent (totalExponent n f) = f + k)
    (rounded : (ExtendedMantissa.ofMantissaAndAccuracy n .exact >>> k).roundedMantissa = r)
    (pos : 0 < r) (bits : r ≤ 2 ^ 53) (normal : 2 ^ 52 ≤ r ∨ f + k = -1074) :
    ∃ (m : Nat) (e : Int) (parts : Rounded m e),
      roundWithAccuracy Format.binary64 s n f .exact = .finite s m e parts.pos := by
  have least : -1074 ≤ f + k := by
    rw [← target, targetExponent_eq]
    exact le_max_right _ _
  rcases Nat.lt_or_eq_of_le bits with small | rfl
  · have parts : Rounded r (f + k) := ⟨pos, small, least, normal⟩
    exact ⟨r, f + k, parts, roundWithAccuracy_of_shifts (j := 0) s pos target rounded
      parts.targetExponent_eq rfl (add_zero _)⟩
  · have parts : Rounded (2 ^ 52) (f + k + 1) :=
      ⟨by decide, by decide, by omega, .inl (Nat.le_refl _)⟩
    have second : Format.binary64.targetExponent (totalExponent (2 ^ 53) (f + k)) =
        f + k + 1 := by
      rw [targetExponent_eq, Nat.log2_two_pow]
      omega
    exact ⟨2 ^ 52, f + k + 1, parts, roundWithAccuracy_of_shifts (j := 1) s parts.pos target
      rounded second (by rfl) rfl⟩

/-- A significand that is fine enough is rounded to zero if its value is at most half of the least
positive number, and otherwise not. -/
theorem roundWithAccuracy_cases (pos : 0 < n)
    (fine : f ≤ Format.binary64.targetExponent (totalExponent n f)) (s : Sign) :
    ((n : ℚ) * 2 ^ f ≤ 2 ^ (-1075 : ℤ) ∧
        roundWithAccuracy Format.binary64 s n f .exact = .zero s) ∨
      (2 ^ (-1075 : ℤ) < (n : ℚ) * 2 ^ f ∧ ∃ (m : Nat) (e : Int) (parts : Rounded m e),
        roundWithAccuracy Format.binary64 s n f .exact = .finite s m e parts.pos) := by
  obtain ⟨k, target⟩ := Int.le.dest fine
  have target := target.symm
  have located : Locates (ExtendedMantissa.ofMantissaAndAccuracy n .exact >>> k) (n / 2 ^ k) :=
    (Locates.exact rfl).shiftRight k
  have unit : (n : ℚ) * 2 ^ f = n / 2 ^ k * 2 ^ (f + k) := by
    rw [zpow_add₀ two_ne_zero, zpow_natCast]
    field_simp
  have half : (2 : ℚ) ^ (-1074 : ℤ) = 2 ^ (-1075 : ℤ) * 2 := by
    rw [← zpow_add_one₀ two_ne_zero]
    norm_num
  have top := div_lt_of_target target
  have bottom := le_div_of_target pos target
  obtain ⟨below, above⟩ := located.roundedMantissa_bounds
  have zeroIff := located.roundedMantissa_eq_zero_iff (by positivity)
  generalize rounded :
    (ExtendedMantissa.ofMantissaAndAccuracy n .exact >>> k).roundedMantissa = r
    at below above zeroIff
  by_cases zero : r = 0
  · have small := zeroIff.mp zero
    have least : f + k = -1074 := bottom.resolve_left (by linarith)
    refine .inl ⟨?_, roundWithAccuracy_eq_zero s target (rounded.trans zero) least⟩
    rw [unit, least, half]
    nlinarith [zpow_two_pos (-1075)]
  · have large := not_le.mp (mt zeroIff.mpr zero)
    have least : (2 : ℚ) ^ (-1074 : ℤ) ≤ 2 ^ (f + k) :=
      zpow_le_zpow_right₀ one_le_two (by rw [← target, targetExponent_eq]; exact le_max_right _ _)
    have bits : r ≤ 2 ^ 53 := by
      have bits : 2 * (r : ℚ) < 2 * 2 ^ 53 + 1 := by linarith
      norm_cast at bits
      omega
    have normal : 2 ^ 52 ≤ r ∨ f + k = -1074 := by
      refine bottom.imp_left fun normal => ?_
      have bits : (2 * 2 ^ 52 : ℚ) ≤ 2 * r + 1 := by linarith
      norm_cast at bits
      omega
    refine .inr ⟨?_, exists_roundWithAccuracy_eq s target rounded (Nat.pos_of_ne_zero zero) bits
      normal⟩
    rw [unit]
    nlinarith [zpow_two_pos (f + k)]

end Aiming

/-! ## Zeros -/

theorem isZero_iff_unpack {x : Float} :
    Scalar.isZero x = true ↔ ∃ s, x.toModel.unpack = .zero s := by
  have zero : (Scalar.zero : Float).toModel.unpack = .zero .positive := rfl
  change (x.toModel.unpack.beq (Scalar.zero : Float).toModel.unpack) = true ↔ _
  rw [zero]
  cases x.toModel.unpack with
  | notANumber => exact ⟨fun equal => (nomatch equal), fun ⟨_, equal⟩ => nomatch equal⟩
  | infinity s => cases s <;> exact ⟨fun equal => (nomatch equal), fun ⟨_, equal⟩ => nomatch equal⟩
  | zero s => exact ⟨fun _ => ⟨s, rfl⟩, fun _ => rfl⟩
  | finite s m e pos =>
      cases s <;> exact ⟨fun equal => (nomatch equal), fun ⟨_, equal⟩ => nomatch equal⟩

theorem unpack_pack_infinity (s : Sign) :
    (Float.Model.pack (.infinity s)).unpack = .infinity s := by
  cases s <;> rfl

/-- What is rounded to a number other than zero is packed as such a number or as infinity. -/
theorem Rounded.isZero_eq_false {m : Nat} {e : Int} (r : Rounded m e) (s : Sign) :
    Scalar.isZero (Float.ofModel (.pack (.finite s m e r.pos))) = false := by
  rw [← Bool.not_eq_true, isZero_iff_unpack]
  rintro ⟨t, isZero⟩
  change (Float.Model.pack (.finite s m e r.pos)).unpack = .zero t at isZero
  by_cases greatest : e ≤ 971
  · rw [unpack_pack ⟨r.pos, r.bits, r.least, greatest, r.normal⟩] at isZero
    exact nomatch isZero
  · have biased : e + Format.binary64.exponentBias + Format.binary64.mantissaBitsWithoutImplicit =
        e + 1075 := by
      change e + (1023 : Nat) + (52 : Nat) = _
      omega
    have infinite : 2 ^ Format.binary64.exponentBits ≤ (e + 1075).toNat + 1 := by
      change 2048 ≤ _
      omega
    have packed : UnpackedFloat.pack Format.binary64 (.finite s m e r.pos) =
        packedInfinity Format.binary64 s := by
      rw [UnpackedFloat.pack, biased]
      exact if_pos infinite
    rw [unpack_pack_eq, packed] at isZero
    exact nomatch (unpack_pack_infinity s).symm.trans isZero

/-! ## Products -/

theorem abs_value_eq {x : Float} {s : Sign} {m : Nat} {e : Int} {pos : 0 < m}
    (unpacked : x.toModel.unpack = .finite s m e pos) : |value x| = m * 2 ^ e := by
  have parts : ∃ negative, parts? x = some ⟨negative, m, e⟩ := by
    rw [parts?, unpacked]
    exact ⟨_, rfl⟩
  obtain ⟨negative, parts⟩ := parts
  rw [value, parts, Option.map_some, Option.getD_some, Parts.value]
  cases negative <;> simp

theorem value_ne_zero_iff {x : Float} : value x ≠ 0 ↔
    ∃ (s : Sign) (m : Nat) (e : Int) (pos : 0 < m), x.toModel.unpack = .finite s m e pos := by
  constructor
  · intro nonzero
    cases unpacked : x.toModel.unpack with
    | finite s m e pos => exact ⟨s, m, e, pos, rfl⟩
    | zero s =>
        rw [value, parts?, unpacked] at nonzero
        exact absurd (by cases s <;> simp [Parts.value]) nonzero
    | _ =>
        rw [value, parts?, unpacked] at nonzero
        exact absurd rfl nonzero
  · rintro ⟨s, m, e, pos, unpacked⟩
    rw [← abs_ne_zero, abs_value_eq unpacked]
    positivity

theorem isZero_eq_false_of_value {x : Float} (nonzero : value x ≠ 0) :
    Scalar.isZero x = false := by
  obtain ⟨s, m, e, pos, unpacked⟩ := value_ne_zero_iff.mp nonzero
  rw [← Bool.not_eq_true, isZero_iff_unpack]
  rintro ⟨t, isZero⟩
  exact nomatch unpacked.symm.trans isZero

theorem unpack_mul (x y : Float) : (x * y).toModel.unpack =
    (Float.Model.pack (UnpackedFloat.mul Format.binary64 x.toModel.unpack y.toModel.unpack)).unpack :=
  rfl

/-- Where a factor is not a number or infinite and none is zero, the product is neither zero. -/
theorem isZero_mul_of_value_eq_zero {x y : Float} (left : Scalar.isZero x = false)
    (right : Scalar.isZero y = false) (special : value x = 0 ∨ value y = 0) :
    Scalar.isZero (x * y) = false := by
  rw [← Bool.not_eq_true, isZero_iff_unpack] at left right ⊢
  rw [unpack_mul]
  have infinite : ∀ s t, (Float.Model.pack (.infinity s)).unpack ≠ .zero t := by
    intro s t
    rw [unpack_pack_infinity]
    exact nofun
  have undefined : ∀ t, (Float.Model.pack .notANumber).unpack ≠ .zero t := fun t => nofun
  rintro ⟨t, isZero⟩
  cases unpackedX : x.toModel.unpack with
  | zero s => exact left ⟨s, unpackedX⟩
  | notANumber =>
      rw [unpackedX] at isZero
      exact undefined t isZero
  | infinity s =>
      rw [unpackedX] at isZero
      cases unpackedY : y.toModel.unpack with
      | zero s => exact right ⟨s, unpackedY⟩
      | notANumber =>
          rw [unpackedY] at isZero
          exact undefined t isZero
      | _ =>
          rw [unpackedY] at isZero
          exact infinite _ t isZero
  | finite s m e pos =>
      rw [unpackedX] at isZero
      cases unpackedY : y.toModel.unpack with
      | zero s => exact right ⟨s, unpackedY⟩
      | notANumber =>
          rw [unpackedY] at isZero
          exact undefined t isZero
      | infinity s =>
          rw [unpackedY] at isZero
          exact infinite _ t isZero
      | finite s' m' e' pos' =>
          rcases special with zero | zero
          · exact value_ne_zero_iff.mpr ⟨s, m, e, pos, unpackedX⟩ zero
          · exact value_ne_zero_iff.mpr ⟨s', m', e', pos', unpackedY⟩ zero

/-- The significand of an exact product is not so coarse that rounding would have to refine it. -/
theorem fine_mul {m m' : Nat} {e e' : Int} (c : Canonical m e) (c' : Canonical m' e') :
    e + e' ≤ Format.binary64.targetExponent (totalExponent (m * m') (e + e')) := by
  have wide : 2 ^ 52 ≤ m * m' ∨ e + e' ≤ -1074 := by
    rcases c.normal with normal | rfl
    · exact .inl (normal.trans (Nat.le_mul_of_pos_right m c'.pos))
    · rcases c'.normal with normal | rfl
      · exact .inl (normal.trans (Nat.le_mul_of_pos_left m' c.pos))
      · exact .inr (by decide)
  rw [targetExponent_eq]
  rcases wide with bits | least
  · have log := (Nat.le_log2 (Nat.ne_of_gt (Nat.mul_pos c.pos c'.pos))).mpr bits
    omega
  · omega

/-- The product of two finite numbers other than zero that is at most half of the least positive
number. -/
structure Underflows (x y : Float) : Prop where
  /-- The first factor is finite and not zero. -/
  left : value x ≠ 0
  /-- So is the second factor. -/
  right : value y ≠ 0
  /-- The product is small. -/
  small : |value x * value y| ≤ 2 ^ (-1075 : ℤ)

/-- Numbers other than zero have a product that is rounded to zero exactly if it is that small. -/
theorem isZero_mul_iff {x y : Float} (left : Scalar.isZero x = false)
    (right : Scalar.isZero y = false) : Scalar.isZero (x * y) = true ↔ Underflows x y := by
  by_cases special : value x = 0 ∨ value y = 0
  · rw [isZero_mul_of_value_eq_zero left right special]
    exact ⟨fun equal => (nomatch equal), fun small => absurd special
      (not_or.mpr ⟨small.left, small.right⟩)⟩
  · obtain ⟨nonzero, nonzero'⟩ := not_or.mp special
    obtain ⟨s, m, e, pos, unpacked⟩ := value_ne_zero_iff.mp nonzero
    obtain ⟨s', m', e', pos', unpacked'⟩ := value_ne_zero_iff.mp nonzero'
    have value : |value x * value y| = (m * m' : ℕ) * 2 ^ (e + e') := by
      rw [abs_mul, abs_value_eq unpacked, abs_value_eq unpacked', zpow_add₀ two_ne_zero]
      push_cast
      ring
    have product : x * y = .ofModel (.pack (roundWithAccuracy Format.binary64 (s * s') (m * m')
        (e + e') .exact)) := by
      change Float.ofModel (.pack (UnpackedFloat.mul Format.binary64 x.toModel.unpack
        y.toModel.unpack)) = _
      rw [unpacked, unpacked']
      rfl
    have fine := fine_mul (canonical_of_unpack unpacked) (canonical_of_unpack unpacked')
    rcases roundWithAccuracy_cases (Nat.mul_pos pos pos') fine (s * s') with
      ⟨small, rounded⟩ | ⟨large, m, e, parts, rounded⟩
    · rw [product, rounded]
      refine ⟨fun _ => ⟨nonzero, nonzero', value ▸ small⟩, fun _ => ?_⟩
      cases s * s' <;> rfl
    · rw [product, rounded, parts.isZero_eq_false]
      exact ⟨fun equal => (nomatch equal), fun under => absurd (value ▸ under.small) (not_le.mpr large)⟩

/-- Changing a sign makes no number zero. -/
theorem isZero_mul_neg_one (x : Float) : Scalar.isZero (x * -Scalar.one) = Scalar.isZero x := by
  rw [exactSigns_float.mul_neg_one, Bool.eq_iff_iff, isZero_iff_unpack, isZero_iff_unpack]
  change (∃ s, (Float.Model.pack x.toModel.unpack.neg).unpack = .zero s) ↔ _
  rw [unpack_pack_neg]
  cases x.toModel.unpack with
  | zero s => exact ⟨fun _ => ⟨s, rfl⟩, fun _ => ⟨-s, rfl⟩⟩
  | _ => exact ⟨fun ⟨_, equal⟩ => (nomatch equal), fun ⟨_, equal⟩ => nomatch equal⟩

end QuantumCircuit.Binary64
