import QuantumCircuit.Decimal.Numeral
import QuantumCircuit.Proofs.Decimal.Rounding

/-!
# Reading a decimal

A decimal is read by one exact multiplication or division with a power of ten, which is rounded.
So a decimal that rounds to a floating-point number is read as this number, whichever way it is
computed.
-/

namespace QuantumCircuit.Binary64

open Float.Model UnpackedFloat

variable {m : Nat} {e : Int} {x : ℚ}

/-! ## Exact products and quotients -/

/-- Rounding a significand that is fine enough. -/
theorem roundWithAccuracy_exact {n : Nat} {f : Int} (rounds : RoundsTo m e (n * 2 ^ f))
    (c : Canonical m e) (fine : f ≤ Format.binary64.targetExponent (totalExponent n f)) (s : Sign) :
    roundWithAccuracy Format.binary64 s n f .exact = .finite s m e c.pos := by
  apply roundWithAccuracy_eq rounds c _ fine
  exact .exact (mul_div_cancel_right₀ _ (zpow_two_pos f).ne')

/-- Shifting a significand and lowering its exponent keep its value. -/
theorem shiftLeft_mul_zpow (n k : Nat) (f : Int) :
    ((n <<< k : ℕ) : ℚ) * 2 ^ (f - k) = n * 2 ^ f := by
  rw [Nat.shiftLeft_eq, zpow_sub₀ two_ne_zero, zpow_natCast]
  push_cast
  field_simp

theorem log2_shiftLeft {n : Nat} (pos : 0 < n) (k : Nat) : (n <<< k).log2 = n.log2 + k := by
  induction k with
  | zero => rfl
  | succ k ih =>
      have shifted : n <<< k ≠ 0 := by
        rw [Nat.shiftLeft_eq]
        positivity
      rw [Nat.shiftLeft_succ, Nat.log2_two_mul shifted, ih, Nat.add_assoc]

/-- Rounding any significand other than zero. -/
theorem round_eq {n : Nat} {f : Int} (pos : 0 < n) (rounds : RoundsTo m e (n * 2 ^ f))
    (c : Canonical m e) (s : Sign) :
    UnpackedFloat.round Format.binary64 s n f = .finite s m e c.pos := by
  rw [UnpackedFloat.round, decreaseExponent, targetExponent_eq]
  generalize amount : (f - max (n.log2 + f - 52) (-1074)).toNat = k
  apply roundWithAccuracy_exact (shiftLeft_mul_zpow n k f ▸ rounds) c
  rw [targetExponent_eq, log2_shiftLeft pos]
  omega

/-- A product. -/
theorem mul_eq {n n' : Nat} {f f' : Int} (pos : 0 < n) (pos' : 0 < n')
    (rounds : RoundsTo m e (n * 2 ^ f * (n' * 2 ^ f'))) (c : Canonical m e)
    (wide : 2 ^ 52 ≤ n * n') :
    UnpackedFloat.mul Format.binary64 (.finite .positive n f pos) (.finite .positive n' f' pos') =
      .finite .positive m e c.pos := by
  have value : ((n * n' : ℕ) : ℚ) * 2 ^ (f + f') = n * 2 ^ f * (n' * 2 ^ f') := by
    rw [zpow_add₀ two_ne_zero]
    push_cast
    ring
  apply roundWithAccuracy_exact (value ▸ rounds) c
  have log : 52 ≤ (n * n').log2 := (Nat.le_log2 (by positivity)).mpr wide
  rw [targetExponent_eq]
  omega

/-- A quotient, located by its whole part and twice its rest. -/
theorem locates_fraction (n : Nat) {d : Nat} (pos : 0 < d) :
    Locates (ExtendedMantissa.ofMantissaAndAccuracy (n / d) (accuracyOfFraction (n % d) d))
      (n / d) := by
  have divisor : (0 : ℚ) < d := by exact_mod_cast pos
  have fraction : (n : ℚ) / d = (n / d : ℕ) + (n % d : ℕ) / d := by
    rw [div_eq_iff divisor.ne', add_mul, div_mul_cancel₀ _ divisor.ne']
    exact_mod_cast (Nat.div_add_mod' n d).symm
  have below : ((n % d : ℕ) : ℚ) / d < 1 := by
    rw [div_lt_one divisor]
    exact_mod_cast Nat.mod_lt n pos
  have twice : 2 * (((n % d : ℕ) : ℚ) / d) = (2 * (n % d) : ℕ) / d := by
    push_cast
    ring
  rw [fraction, accuracyOfFraction]
  by_cases exact : n % d = 0
  · rw [if_pos exact, exact, Nat.cast_zero, zero_div, add_zero]
    exact .exact rfl
  · have above : 0 < ((n % d : ℕ) : ℚ) / d := by
      apply div_pos _ divisor
      exact_mod_cast Nat.pos_of_ne_zero exact
    rw [if_neg exact]
    cases side : compare (2 * (n % d)) d with
    | lt =>
        have less : (2 * (n % d) : ℕ) / (d : ℚ) < 1 := by
          rw [div_lt_one divisor]
          exact_mod_cast Nat.compare_eq_lt.mp side
        exact .low (by linarith) (by linarith)
    | eq =>
        have equal : (2 * (n % d) : ℕ) / (d : ℚ) = 1 := by
          rw [div_eq_one_iff_eq divisor.ne']
          exact_mod_cast Nat.compare_eq_eq.mp side
        exact .middle (by linarith)
    | gt =>
        have greater : 1 < (2 * (n % d) : ℕ) / (d : ℚ) := by
          rw [one_lt_div divisor]
          exact_mod_cast Nat.compare_eq_gt.mp side
        exact .high (by linarith) (by linarith)

/-- A dividend is shifted so that the quotient has enough bits. -/
theorem exists_divCore_eq (n n' : Nat) (f f' : Int) : ∃ (t : Int) (k : Nat),
    divCore Format.binary64 n f n' f' =
        (n <<< k / n', t, accuracyOfFraction (n <<< k % n') n') ∧
      t + k = f - f' ∧ (t ≤ -1074 ∨ n'.log2 + 53 ≤ n.log2 + k) := by
  have target : ∀ total : Int, Format.binary64.targetExponent total = max (total - 53) (-1074) :=
    fun _ => rfl
  refine ⟨min (f - f') (Format.binary64.targetExponent (totalExponent n f - totalExponent n' f')),
    _, rfl, ?_⟩
  rw [target, totalExponent, totalExponent]
  omega

/-- A quotient. -/
theorem div_eq {n n' : Nat} {f f' : Int} (pos : 0 < n) (pos' : 0 < n')
    (rounds : RoundsTo m e (n * 2 ^ f / (n' * 2 ^ f'))) (c : Canonical m e) :
    UnpackedFloat.div Format.binary64 (.finite .positive n f pos) (.finite .positive n' f' pos') =
      .finite .positive m e c.pos := by
  obtain ⟨t, k, core, sum, enough⟩ := exists_divCore_eq n n' f f'
  rw [UnpackedFloat.div, core]
  have value : (n : ℚ) * 2 ^ f / (n' * 2 ^ f') / 2 ^ t = (n <<< k : ℕ) / n' := by
    have exponent : f = t + k + f' := by omega
    rw [exponent, zpow_add₀ two_ne_zero, zpow_add₀ two_ne_zero, zpow_natCast, Nat.shiftLeft_eq]
    push_cast
    field_simp
  apply roundWithAccuracy_eq rounds c
  · rw [value]
    exact locates_fraction _ pos'
  · -- The exponent is the least, or the quotient has enough bits not to be shifted left.
    rw [targetExponent_eq]
    rcases enough with least | bits
    · omega
    · have quotient : 2 ^ 52 ≤ n <<< k / n' := by
        apply (Nat.le_div_iff_mul_le pos').mpr
        calc
          2 ^ 52 * n' ≤ 2 ^ 52 * 2 ^ (n'.log2 + 1) := Nat.mul_le_mul_left _ Nat.lt_log2_self.le
          _ = 2 ^ (n'.log2 + 53) := by rw [← Nat.pow_add]; congr 1; omega
          _ ≤ 2 ^ (n <<< k).log2 := by
            rw [log2_shiftLeft pos]
            exact Nat.pow_le_pow_right two_pos bits
          _ ≤ n <<< k := by
            apply Nat.log2_self_le
            rw [Nat.shiftLeft_eq]
            positivity
      have log := (Nat.le_log2 (by omega)).mpr quotient
      omega

/-! ## Decimals -/

theorem ten_zpow (k : Int) : (10 : ℚ) ^ k = 2 ^ k * 5 ^ k := by
  rw [← mul_zpow]
  norm_num

/-- A decimal that rounds to a number is not so large that it is read as infinity. -/
theorem RoundsTo.exponent_le {d : Nat} {k : Int} (rounds : RoundsTo m e (d * 10 ^ k))
    (c : Canonical m e) (pos : 0 < d) : k ≤ 2048 := by
  by_contra large
  have greatest := c.greatest
  have one : (1 : ℚ) ≤ d := by exact_mod_cast pos
  have exponents : (2 : ℚ) ^ k < 2 ^ (e + 53) := by
    calc
      (2 : ℚ) ^ k ≤ 2 ^ k * 5 ^ k :=
        le_mul_of_one_le_right (zpow_two_pos k).le (one_le_zpow₀ (by norm_num) (by omega))
      _ = 10 ^ k := (ten_zpow k).symm
      _ ≤ d * 10 ^ k := le_mul_of_one_le_left (by positivity) one
      _ < 2 ^ (e + 53) := rounds.lt_zpow c
  have less := (zpow_lt_zpow_iff_right₀ one_lt_two).mp exponents
  omega

/-- A decimal that rounds to a number is not so small that it is read as zero. -/
theorem RoundsTo.le_exponent {d : Nat} {k : Int} (rounds : RoundsTo m e (d * 10 ^ k))
    (c : Canonical m e) : -(2048 + d.log2) ≤ k := by
  by_contra small
  have least := c.least
  have bits : (d : ℚ) < 2 ^ (d.log2 + 1) := by exact_mod_cast Nat.lt_log2_self
  have exponents : (2 : ℚ) ^ (e - 1) < 2 ^ (d.log2 + 1 + k) := by
    calc
      (2 : ℚ) ^ (e - 1) ≤ d * 10 ^ k := rounds.zpow_le c
      _ < 2 ^ (d.log2 + 1) * 10 ^ k := mul_lt_mul_of_pos_right bits (by positivity)
      _ = 2 ^ (d.log2 + 1) * 2 ^ k * 5 ^ k := by rw [ten_zpow, mul_assoc]
      _ ≤ 2 ^ (d.log2 + 1) * 2 ^ k :=
        mul_le_of_le_one_right (by positivity) (zpow_le_one_of_nonpos₀ (by norm_num) (by omega))
      _ = 2 ^ (d.log2 + 1 + k) := by
        rw [zpow_add₀ two_ne_zero]
        norm_cast
  have less := (zpow_lt_zpow_iff_right₀ one_lt_two).mp exponents
  omega

/-- The product that a decimal with a power of ten as factor is computed as. -/
theorem mul_ten_pow_eq {d i : Nat} (pos : 0 < d) (rounds : RoundsTo m e (d * 10 ^ i))
    (c : Canonical m e) (shifted : 0 < d <<< 53) (power : 0 < 10 ^ i) :
    UnpackedFloat.mul Format.binary64 (.finite .positive (d <<< 53) (-53) shifted)
        (.finite .positive (10 ^ i) 0 power) = .finite .positive m e c.pos := by
  have value : ((d <<< 53 : ℕ) : ℚ) * 2 ^ (-53 : Int) * ((10 ^ i : ℕ) * 2 ^ (0 : Int)) =
      d * 10 ^ i := by
    have left := shiftLeft_mul_zpow d 53 0
    rw [zpow_zero, mul_one] at left
    rw [zpow_zero, mul_one, Nat.cast_pow, Nat.cast_ofNat]
    exact congrArg (· * (10 : ℚ) ^ i) left
  have wide : 2 ^ 52 ≤ d <<< 53 * 10 ^ i := by
    calc
      2 ^ 52 ≤ d * 2 ^ 53 := (by decide : 2 ^ 52 ≤ 2 ^ 53).trans (Nat.le_mul_of_pos_left _ pos)
      _ = d <<< 53 := (Nat.shiftLeft_eq d 53).symm
      _ ≤ d <<< 53 * 10 ^ i := Nat.le_mul_of_pos_right _ power
  apply mul_eq shifted power _ c wide
  rw [value]
  exact rounds

/-- The quotient that a decimal with a power of ten as divisor is computed as. -/
theorem div_ten_pow_eq {d i : Nat} (pos : 0 < d) (rounds : RoundsTo m e (d / 10 ^ i))
    (c : Canonical m e) (power : 0 < 10 ^ i) :
    UnpackedFloat.div Format.binary64 (.finite .positive d 0 pos)
        (.finite .positive (10 ^ i) 0 power) = .finite .positive m e c.pos := by
  apply div_eq pos power _ c
  rw [zpow_zero, mul_one, mul_one, Nat.cast_pow, Nat.cast_ofNat]
  exact rounds

/-- A decimal that rounds to a number is read as this number. -/
theorem ofScientific_eq {d : Nat} {k : Int} (rounds : RoundsTo m e (d * 10 ^ k))
    (c : Canonical m e) (pos : 0 < d) :
    UnpackedFloat.ofScientific Format.binary64 d k = .finite .positive m e c.pos := by
  have notLarge : ¬ k > 2 ^ Format.binary64.exponentBits :=
    not_lt.mpr (rounds.exponent_le c pos)
  have notSmall : ¬ k < -((2 ^ Format.binary64.exponentBits : Int) + d.log2) :=
    not_lt.mpr (rounds.le_exponent c)
  rw [UnpackedFloat.ofScientific, dif_neg (Nat.ne_of_gt pos), if_neg notLarge, if_neg notSmall]
  split_ifs with whole
  · obtain ⟨i, rfl⟩ := Int.eq_ofNat_of_zero_le whole
    have bits : Format.binary64.mantissaBits = 53 := rfl
    rw [zpow_natCast] at rounds
    simp only [bits, Int.toNat_natCast, Nat.cast_ofNat]
    exact mul_ten_pow_eq pos rounds c _ _
  · obtain ⟨i, rfl⟩ : ∃ i : Nat, k = -i := ⟨k.natAbs, by omega⟩
    rw [zpow_neg, zpow_natCast, ← div_eq_mul_inv] at rounds
    simp only [neg_neg, Int.toNat_natCast]
    exact div_ten_pow_eq pos rounds c _

/-! ## Small decimals -/

theorem float_mul_eq {a b : Float} {n n' : Nat} {f f' : Int} {pos : 0 < n} {pos' : 0 < n'}
    (left : a.toModel.unpack = .finite .positive n f pos)
    (right : b.toModel.unpack = .finite .positive n' f' pos')
    (rounds : RoundsTo m e (n * 2 ^ f * (n' * 2 ^ f'))) (c : Canonical m e)
    (wide : 2 ^ 52 ≤ n * n') :
    a * b = .ofModel (Float.Model.pack (.finite .positive m e c.pos)) := by
  rw [← mul_eq pos pos' rounds c wide, ← left, ← right]
  rfl

theorem float_div_eq {a b : Float} {n n' : Nat} {f f' : Int} {pos : 0 < n} {pos' : 0 < n'}
    (left : a.toModel.unpack = .finite .positive n f pos)
    (right : b.toModel.unpack = .finite .positive n' f' pos')
    (rounds : RoundsTo m e (n * 2 ^ f / (n' * 2 ^ f'))) (c : Canonical m e) :
    a / b = .ofModel (Float.Model.pack (.finite .positive m e c.pos)) := by
  rw [← div_eq pos pos' rounds c, ← left, ← right]
  rfl

/-- A significand of at most 53 bits is kept as it is, with zeros after its bits. -/
theorem exists_unpack_round {n : Nat} {f : Int} (pos : 0 < n) (bits : n < 2 ^ 53) (least : 0 ≤ f)
    (greatest : f ≤ 971) : ∃ (m : Nat) (e : Int) (pos : 0 < m),
      (Float.Model.pack (UnpackedFloat.round Format.binary64 .positive n f)).unpack =
          .finite .positive m e pos ∧
        (m : ℚ) * 2 ^ e = n * 2 ^ f ∧ 2 ^ 52 ≤ m := by
  have log : n.log2 < 53 := (Nat.log2_lt (Nat.ne_of_gt pos)).mpr bits
  obtain ⟨k, sum⟩ := Nat.exists_eq_add_of_le (Nat.le_of_lt_succ log)
  have shifted : (n <<< k).log2 = 52 := by
    rw [log2_shiftLeft pos, ← sum]
  have nonzero : n <<< k ≠ 0 := by
    rw [Nat.shiftLeft_eq]
    positivity
  have ends := (Nat.log2_eq_iff nonzero).mp shifted
  have canonical : Canonical (n <<< k) (f - k) :=
    ⟨Nat.pos_of_ne_zero nonzero, ends.2, by omega, by omega, .inl ends.1⟩
  have value := shiftLeft_mul_zpow n k f
  have rounded := round_eq pos (value ▸ roundsTo_self canonical) canonical .positive
  refine ⟨n <<< k, f - k, canonical.pos, ?_, value, ends.1⟩
  rw [rounded]
  exact unpack_pack canonical .positive canonical.pos

theorem toFloat_toUInt64 {d : Nat} (pos : 0 < d) (bits : d < 2 ^ 53) : d.toUInt64.toFloat =
    .ofModel (Float.Model.pack (UnpackedFloat.round Format.binary64 .positive d 0)) := by
  have kept : d.toUInt64.toNat = d := by
    rw [Nat.toUInt64, UInt64.toNat_ofNat_of_lt']
    exact bits.trans (by decide)
  have positive : compare (d : Int) 0 = .gt := Int.compare_eq_gt.mpr (by omega)
  change Float.ofModel (Float.Model.pack
    (UnpackedFloat.normalize Format.binary64 d.toUInt64.toNat 0 .positive)) = _
  rw [kept, UnpackedFloat.normalize, positive]
  rfl

/-- The powers of ten that are floating-point numbers: of `10^i`, the factor `2^i` goes into the
exponent. -/
theorem exactlyRepresentablePowersOfTen_eq : ∀ i : Fin 23,
    Float.exactlyRepresentablePowersOfTen[i] = .ofModel (Float.Model.pack
      (UnpackedFloat.round Format.binary64 .positive (5 ^ i.val) i)) := by
  decide +kernel

/-- The parts of the small powers of ten. -/
theorem exists_unpack_powerOfTen {i : Nat}
    (small : i < Float.exactlyRepresentablePowersOfTen.size) : ∃ (m : Nat) (e : Int) (pos : 0 < m),
      Float.exactlyRepresentablePowersOfTen[i].toModel.unpack = .finite .positive m e pos ∧
        (m : ℚ) * 2 ^ e = 10 ^ i := by
  have small : i < 23 := small
  have bits : 5 ^ i < 2 ^ 53 :=
    (Nat.pow_le_pow_right (by decide) (Nat.le_of_lt_succ small)).trans_lt (by decide : 5 ^ 22 < _)
  obtain ⟨m, e, pos, unpacked, value, -⟩ :=
    exists_unpack_round (by positivity) bits (Int.natCast_nonneg i) (by omega)
  have table := exactlyRepresentablePowersOfTen_eq ⟨i, small⟩
  refine ⟨m, e, pos, (congrArg (fun x => x.toModel.unpack) table).trans unpacked, ?_⟩
  rw [value, zpow_natCast]
  push_cast
  rw [← mul_pow]
  norm_num

/-- The product of a small natural number and a small power of ten. -/
theorem mul_powerOfTen {d i : Nat} (pos : 0 < d) (bits : d < 2 ^ 53)
    (small : i < Float.exactlyRepresentablePowersOfTen.size) (rounds : RoundsTo m e (d * 10 ^ i))
    (c : Canonical m e) : d.toUInt64.toFloat * Float.exactlyRepresentablePowersOfTen[i] =
      .ofModel (Float.Model.pack (.finite .positive m e c.pos)) := by
  obtain ⟨n, f, posN, unpacked, value, normal⟩ :=
    exists_unpack_round pos bits (Int.le_refl 0) (by decide)
  obtain ⟨n', f', posN', unpacked', value'⟩ := exists_unpack_powerOfTen small
  rw [zpow_zero, mul_one] at value
  rw [← value, ← value'] at rounds
  rw [toFloat_toUInt64 pos bits]
  exact float_mul_eq unpacked unpacked' rounds c (normal.trans (Nat.le_mul_of_pos_right n posN'))

/-- The quotient of a small natural number and a small power of ten. -/
theorem div_powerOfTen {d i : Nat} (pos : 0 < d) (bits : d < 2 ^ 53)
    (small : i < Float.exactlyRepresentablePowersOfTen.size) (rounds : RoundsTo m e (d / 10 ^ i))
    (c : Canonical m e) : d.toUInt64.toFloat / Float.exactlyRepresentablePowersOfTen[i] =
      .ofModel (Float.Model.pack (.finite .positive m e c.pos)) := by
  obtain ⟨n, f, posN, unpacked, value, -⟩ :=
    exists_unpack_round pos bits (Int.le_refl 0) (by decide)
  obtain ⟨n', f', posN', unpacked', value'⟩ := exists_unpack_powerOfTen small
  rw [zpow_zero, mul_one] at value
  rw [← value, ← value'] at rounds
  rw [toFloat_toUInt64 pos bits]
  exact float_div_eq unpacked unpacked' rounds c

/-- A decimal that rounds to a number is read as this number, also where it is read in the quick
way. -/
theorem float_ofScientific_eq {d : Nat} {k : Int} (rounds : RoundsTo m e (d * 10 ^ k))
    (c : Canonical m e) : Float.ofScientific d (k < 0) k.natAbs =
      .ofModel (Float.Model.pack (.finite .positive m e c.pos)) := by
  have pos : 0 < d := by
    have pos := rounds.pos c
    apply Nat.pos_of_ne_zero
    rintro rfl
    simp at pos
  have slow := ofScientific_eq rounds c pos
  rw [Float.ofScientific]
  by_cases negative : k < 0
  · obtain ⟨i, rfl⟩ : ∃ i : Nat, k = -i := ⟨k.natAbs, by omega⟩
    rw [decide_eq_true negative, Int.natAbs_neg, Int.natAbs_natCast]
    split
    · next quick =>
        rw [zpow_neg, zpow_natCast, ← div_eq_mul_inv] at rounds
        exact div_powerOfTen pos quick.1 (Nat.lt_succ_of_le quick.2) rounds c
    · rw [if_pos rfl, Int.negOfNat_eq]
      exact congrArg (fun u => Float.ofModel (Float.Model.pack u)) slow
  · obtain ⟨i, rfl⟩ := Int.eq_ofNat_of_zero_le (not_lt.mp negative)
    rw [decide_eq_false negative, Int.natAbs_natCast]
    split
    · next quick =>
        rw [zpow_natCast] at rounds
        exact mul_powerOfTen pos quick.1 (Nat.lt_succ_of_le quick.2) rounds c
    · exact congrArg (fun u => Float.ofModel (Float.Model.pack u)) slow

end QuantumCircuit.Binary64
