import QuantumCircuit.Proofs.Decimal.Canonical

/-!
# Rounding to the nearest number

The rationals that round to a floating-point number lie around its value, up to half a unit away,
and the ends belong to them if the significand is even.  Rounding keeps a significand and two bits
for what lies below it; these tell where the exact value is, and remain true when the significand is
shifted.  So whatever exact value rounds to a number, rounding it gives that number.
-/

namespace QuantumCircuit.Binary64

open Float.Model UnpackedFloat

/-! ## What a significand and two more bits say -/

/-- A significand and the two bits below it tell where an exact value lies. -/
inductive Locates : ExtendedMantissa → ℚ → Prop
  /-- The value is the significand. -/
  | exact {n : Nat} {x : ℚ} (equal : x = n) : Locates ⟨n, false, false⟩ x
  /-- The value lies in the lower half of the unit above the significand. -/
  | low {n : Nat} {x : ℚ} (above : n < x) (below : 2 * x < 2 * n + 1) : Locates ⟨n, false, true⟩ x
  /-- The value lies in the middle of this unit. -/
  | middle {n : Nat} {x : ℚ} (equal : 2 * x = 2 * n + 1) : Locates ⟨n, true, false⟩ x
  /-- The value lies in its upper half. -/
  | high {n : Nat} {x : ℚ} (above : 2 * n + 1 < 2 * x) (below : x < n + 1) :
      Locates ⟨n, true, true⟩ x

namespace Locates

variable {em : ExtendedMantissa} {x : ℚ} {n m : Nat}

/-- The value lies between the significand and the next one. -/
theorem bounds (located : Locates em x) : em.mantissa ≤ x ∧ x < em.mantissa + 1 := by
  cases located <;> constructor <;> dsimp only <;> linarith

/-- Half of an integer, located from its bits. -/
theorem half_exact (equal : x = n) : Locates ⟨n / 2, n % 2 != 0, false⟩ (x / 2) := by
  have value : (n : ℚ) = (n / 2 : ℕ) * 2 + (n % 2 : ℕ) := by
    exact_mod_cast (Nat.div_add_mod' n 2).symm
  rcases Nat.mod_two_eq_zero_or_one n with even | odd
  · rw [even, Nat.cast_zero] at value
    rw [even]
    exact .exact (by linarith)
  · rw [odd, Nat.cast_one] at value
    rw [odd]
    exact .middle (by linarith)

/-- Half of a value between two integers, located from the bits of the lower one. -/
theorem half_between (above : n < x) (below : x < n + 1) :
    Locates ⟨n / 2, n % 2 != 0, true⟩ (x / 2) := by
  have value : (n : ℚ) = (n / 2 : ℕ) * 2 + (n % 2 : ℕ) := by
    exact_mod_cast (Nat.div_add_mod' n 2).symm
  rcases Nat.mod_two_eq_zero_or_one n with even | odd
  · rw [even, Nat.cast_zero] at value
    rw [even]
    exact .low (by linarith) (by linarith)
  · rw [odd, Nat.cast_one] at value
    rw [odd]
    exact .high (by linarith) (by linarith)

/-- Dropping the last bit of the significand halves the value. -/
theorem shiftRightOne (located : Locates em x) : Locates em.shiftRightOne (x / 2) := by
  cases located with
  | exact equal => exact half_exact equal
  | low above below => exact half_between above (by linarith)
  | middle equal => exact half_between (by linarith) (by linarith)
  | high above below => exact half_between (by linarith) below

theorem shiftRight (located : Locates em x) (k : Nat) : Locates (em >>> k) (x / 2 ^ k) := by
  change Locates (k.repeat ExtendedMantissa.shiftRightOne em) _
  induction k with
  | zero => rwa [pow_zero, div_one]
  | succ k ih =>
      rw [Nat.repeat, pow_succ, ← div_div]
      exact ih.shiftRightOne

/-- Rounding gives the significand that the value is nearest to, and of two the even one. -/
theorem roundedMantissa_eq (located : Locates em x) (low : 2 * (m : ℚ) ≤ 2 * x + 1)
    (high : 2 * x ≤ 2 * m + 1)
    (inside : m % 2 = 1 → 2 * (m : ℚ) < 2 * x + 1 ∧ 2 * x < 2 * m + 1) :
    em.roundedMantissa = m := by
  cases located with
  | @exact n _ equal =>
      rw [equal] at low high
      norm_cast at low high
      change n = m
      omega
  | @low n _ above below =>
      have notLess : (2 * n : ℚ) < 2 * m + 1 := by linarith
      have notGreater : (2 * m : ℚ) < 2 * n + 2 := by linarith
      norm_cast at notLess notGreater
      change n = m
      omega
  | @middle n _ equal =>
      rw [equal] at low high inside
      norm_cast at low high inside
      change n + n % 2 = m
      omega
  | @high n _ above below =>
      have notLess : (2 * n + 1 : ℚ) < 2 * m + 1 := by linarith
      have notGreater : (2 * m : ℚ) < 2 * n + 3 := by linarith
      norm_cast at notLess notGreater
      change n + 1 = m
      omega

end Locates

/-! ## The values that round to a number -/

/-- The lower end of the values that round to `m · 2^e`, in quarters of a unit.  Below a power of
two the next number is half as far away. -/
def lowEnd (m : Nat) (e : Int) : Nat :=
  4 * m - if m = 0x10000000000000 ∧ -1074 < e then 1 else 2

/-- Whether a value rounds to `m · 2^e`. -/
structure RoundsTo (m : Nat) (e : Int) (x : ℚ) : Prop where
  /-- The value is not below the lower end. -/
  low : lowEnd m e * 2 ^ e ≤ 4 * x
  /-- The value is not above the upper end. -/
  high : 4 * x ≤ (4 * m + 2 : ℕ) * 2 ^ e
  /-- The ends round to the other numbers if the significand is odd. -/
  inside : m % 2 = 1 → lowEnd m e * 2 ^ e < 4 * x ∧ 4 * x < (4 * m + 2 : ℕ) * 2 ^ e

theorem zpow_two_pos (e : Int) : (0 : ℚ) < 2 ^ e :=
  zpow_pos two_pos e

variable {m : Nat} {e : Int} {x : ℚ}

/-- The value of a number rounds to the number. -/
theorem roundsTo_self (c : Canonical m e) : RoundsTo m e (m * 2 ^ e) := by
  have pos := zpow_two_pos e
  have below : lowEnd m e * (2 : ℚ) ^ e < 4 * (m * 2 ^ e) := by
    have below : lowEnd m e < 4 * m := by
      have pos := c.pos
      rw [lowEnd]
      split <;> omega
    rw [← mul_assoc]
    apply mul_lt_mul_of_pos_right _ pos
    exact_mod_cast below
  have above : 4 * (m * 2 ^ e) < (4 * m + 2 : ℕ) * (2 : ℚ) ^ e := by
    push_cast
    linarith
  exact ⟨below.le, above.le, fun _ => ⟨below, above⟩⟩

theorem RoundsTo.lt_zpow (rounds : RoundsTo m e x) (c : Canonical m e) : x < 2 ^ (e + 53) := by
  have bits : ((4 * m + 2 : ℕ) : ℚ) < 4 * 2 ^ 53 := by
    have small := c.bits
    exact_mod_cast (by omega : 4 * m + 2 < 4 * 2 ^ 53)
  have scaled := mul_lt_mul_of_pos_right bits (zpow_two_pos e)
  have high := rounds.high
  rw [zpow_add₀ two_ne_zero]
  norm_num
  linarith

theorem RoundsTo.zpow_lt (rounds : RoundsTo m e x) (c : Canonical m e) (above : -1074 < e) :
    2 ^ (e + 51) < x := by
  have normal : 2 ^ 52 ≤ m := c.normal.resolve_right (Int.ne_of_gt above)
  have bits : (4 * 2 ^ 51 : ℚ) < lowEnd m e := by
    have large : 4 * 2 ^ 51 < lowEnd m e := by
      rw [lowEnd]
      split <;> omega
    exact_mod_cast large
  have scaled := mul_lt_mul_of_pos_right bits (zpow_two_pos e)
  have low := rounds.low
  rw [zpow_add₀ two_ne_zero]
  norm_num
  linarith

theorem RoundsTo.zpow_le (rounds : RoundsTo m e x) (c : Canonical m e) : 2 ^ (e - 1) ≤ x := by
  have bits : (2 : ℚ) ≤ lowEnd m e := by
    have large : 2 ≤ lowEnd m e := by
      have pos := c.pos
      rw [lowEnd]
      split <;> omega
    exact_mod_cast large
  have scaled := mul_le_mul_of_nonneg_right bits (zpow_two_pos e).le
  have low := rounds.low
  rw [zpow_sub₀ two_ne_zero, zpow_one]
  linarith

theorem RoundsTo.pos (rounds : RoundsTo m e x) (c : Canonical m e) : 0 < x :=
  (zpow_two_pos (e - 1)).trans_le (rounds.zpow_le c)

/-- Below a power of two, only numbers a bit below it round up to it. -/
theorem RoundsTo.eq_of_lt (rounds : RoundsTo m e x) (c : Canonical m e) (above : -1074 < e)
    (below : x < 2 ^ (e + 52)) : m = 2 ^ 52 := by
  have normal : 2 ^ 52 ≤ m := c.normal.resolve_right (Int.ne_of_gt above)
  have low := rounds.low
  rw [zpow_add₀ two_ne_zero] at below
  have scaled : (lowEnd m e : ℚ) * 2 ^ e < 4 * 2 ^ 52 * 2 ^ e := by
    norm_num at below
    linarith
  have bits : (lowEnd m e : ℚ) < 4 * 2 ^ 52 := lt_of_mul_lt_mul_right scaled (zpow_two_pos e).le
  have small : lowEnd m e < 4 * 2 ^ 52 := by exact_mod_cast bits
  rw [lowEnd] at small
  split at small <;> omega

/-! ## Rounding -/

theorem targetExponent_eq (m : Nat) (e : Int) :
    Format.binary64.targetExponent (totalExponent m e) = max (m.log2 + e - 52) (-1074) := by
  change max ((m.log2 + 1 + e : Int) - (53 : Nat)) (-1074) = _
  congr 1
  omega

/-- The exponent to which a significand that locates a value is shifted is that of the number to
which the value rounds, or one less if the value lies below a power of two. -/
theorem exponent_eq_or (rounds : RoundsTo m e x) (c : Canonical m e) {n : Nat} {f : Int}
    (below : x < (n + 1) * 2 ^ f) (above : n * 2 ^ f ≤ x)
    (fine : f ≤ Format.binary64.targetExponent (totalExponent n f)) :
    Format.binary64.targetExponent (totalExponent n f) = e ∨
      Format.binary64.targetExponent (totalExponent n f) = e - 1 ∧ m = 2 ^ 52 ∧ -1074 < e ∧
        x < 2 ^ (e + 52) := by
  have least := c.least
  rw [targetExponent_eq] at fine ⊢
  have top : x < 2 ^ (n.log2 + 1 + f) := by
    have bits : (n + 1 : ℚ) ≤ 2 ^ (n.log2 + 1) := by exact_mod_cast Nat.lt_log2_self
    have scaled := mul_le_mul_of_nonneg_right bits (zpow_two_pos f).le
    rw [zpow_add₀ two_ne_zero]
    exact lt_of_lt_of_le below (by exact_mod_cast scaled)
  have notGreater : max ((n.log2 : Int) + f - 52) (-1074) ≤ e := by
    by_contra greater
    -- The significand alone would have more bits than any value that rounds to the number.
    have notZero : n ≠ 0 := by
      rintro rfl
      rw [Nat.log2_zero] at fine greater
      omega
    have bits : (2 ^ n.log2 : ℚ) ≤ n := by exact_mod_cast Nat.log2_self_le notZero
    have bottom : (2 : ℚ) ^ (n.log2 + f) < 2 ^ (e + 53) := by
      have scaled := mul_le_mul_of_nonneg_right bits (zpow_two_pos f).le
      rw [zpow_add₀ two_ne_zero]
      exact lt_of_le_of_lt (by exact_mod_cast scaled.trans above) (rounds.lt_zpow c)
    have exponents := (zpow_lt_zpow_iff_right₀ one_lt_two).mp bottom
    omega
  by_cases equal : max ((n.log2 : Int) + f - 52) (-1074) = e
  · exact .inl equal
  · have inner : -1074 < e := by omega
    have exponents := (zpow_lt_zpow_iff_right₀ one_lt_two).mp ((rounds.zpow_lt c inner).trans top)
    have below : x < 2 ^ (e + 52) :=
      lt_of_lt_of_le top ((zpow_le_zpow_iff_right₀ one_lt_two).mpr (by omega))
    exact .inr ⟨by omega, rounds.eq_of_lt c inner below, inner, below⟩

/-- The parts that rounding gives: they are canonical, or the exponent is too large. -/
structure Rounded (m : Nat) (e : Int) : Prop where
  /-- The significand is not zero. -/
  pos : 0 < m
  /-- The significand has at most 53 bits. -/
  bits : m < 2 ^ 53
  /-- The exponent is not too small. -/
  least : -1074 ≤ e
  /-- The significand has 53 bits, unless the exponent is the least. -/
  normal : 2 ^ 52 ≤ m ∨ e = -1074

theorem Rounded.targetExponent_eq (r : Rounded m e) :
    Format.binary64.targetExponent (totalExponent m e) = e := by
  have least := r.least
  have log : m.log2 < 53 := (Nat.log2_lt (Nat.ne_of_gt r.pos)).mpr r.bits
  rw [Binary64.targetExponent_eq]
  rcases r.normal with normal | isLeast
  · have log' : 52 ≤ m.log2 := (Nat.le_log2 (Nat.ne_of_gt r.pos)).mpr normal
    omega
  · omega

theorem Canonical.rounded (c : Canonical m e) : Rounded m e :=
  ⟨c.pos, c.bits, c.least, c.normal⟩

theorem shiftToTargetExponent_eq {n : Nat} {f : Int} (a : Accuracy) {k : Nat}
    (target : Format.binary64.targetExponent (totalExponent n f) = f + k) :
    shiftToTargetExponent Format.binary64 n f a =
      (ExtendedMantissa.ofMantissaAndAccuracy n a >>> k, f + k) := by
  have amount : (f + k - f).toNat = k := by omega
  rw [shiftToTargetExponent, target, shiftToExponent, amount]

/-- Rounding shifts once to round, and once more if all bits of the significand were ones. -/
theorem roundWithAccuracy_of_shifts {n : Nat} {f : Int} {a : Accuracy} {k j r : Nat} (s : Sign)
    (pos : 0 < m) (first : Format.binary64.targetExponent (totalExponent n f) = f + k)
    (rounded : (ExtendedMantissa.ofMantissaAndAccuracy n a >>> k).roundedMantissa = r)
    (second : Format.binary64.targetExponent (totalExponent r (f + k)) = e)
    (shifted : (ExtendedMantissa.ofMantissaAndAccuracy r .exact >>> j).mantissa = m)
    (sum : f + k + j = e) : roundWithAccuracy Format.binary64 s n f a = .finite s m e pos := by
  subst sum
  rw [roundWithAccuracy, shiftToTargetExponent_eq a first]
  simp only [rounded, shiftToTargetExponent_eq .exact second, shifted]
  exact dif_neg (Nat.ne_of_gt pos)

theorem mantissa_ofMantissaAndAccuracy (n : Nat) (a : Accuracy) :
    (ExtendedMantissa.ofMantissaAndAccuracy n a).mantissa = n := by
  rcases a with _ | _ | _ | _ <;> rfl

/-- Shifting on to a greater exponent. -/
theorem Locates.shiftRight_zpow {em : ExtendedMantissa} {f : Int} (k : Nat)
    (located : Locates em (x / 2 ^ f)) : Locates (em >>> k) (x / 2 ^ (f + k)) := by
  rw [zpow_add₀ two_ne_zero, zpow_natCast, ← div_div]
  exact located.shiftRight k

/-- At the exponent of the number to which a value rounds, rounding gives its significand. -/
theorem RoundsTo.roundedMantissa_eq (rounds : RoundsTo m e x)
    {em : ExtendedMantissa} (located : Locates em (x / 2 ^ e)) : em.roundedMantissa = m := by
  have pos := zpow_two_pos e
  have unit : x = x / 2 ^ e * 2 ^ e := (div_mul_cancel₀ x pos.ne').symm
  have wide : (4 * m : ℚ) ≤ lowEnd m e + 2 := by
    have wide : 4 * m ≤ lowEnd m e + 2 := by
      rw [lowEnd]
      split <;> omega
    exact_mod_cast wide
  obtain ⟨low, high, inside⟩ := rounds
  rw [unit, ← mul_assoc] at low high
  have low := le_of_mul_le_mul_right low pos
  have high := le_of_mul_le_mul_right high pos
  push_cast at high
  apply located.roundedMantissa_eq
  · linarith
  · linarith
  · intro odd
    obtain ⟨low, high⟩ := inside odd
    rw [unit, ← mul_assoc] at low high
    have low := lt_of_mul_lt_mul_right low pos.le
    have high := lt_of_mul_lt_mul_right high pos.le
    push_cast at high
    constructor <;> linarith

/-- At the exponent below, rounding a value just below a power of two gives twice this power. -/
theorem RoundsTo.roundedMantissa_eq_two_pow (rounds : RoundsTo (2 ^ 52) e x) (above : -1074 < e)
    (below : x < 2 ^ (e + 52)) {em : ExtendedMantissa} (located : Locates em (x / 2 ^ (e - 1))) :
    em.roundedMantissa = 2 ^ 53 := by
  have pos := zpow_two_pos (e - 1)
  have unit : x = x / 2 ^ (e - 1) * 2 ^ (e - 1) := (div_mul_cancel₀ x pos.ne').symm
  have power : (2 : ℚ) ^ e = 2 * 2 ^ (e - 1) := by
    rw [← zpow_one_add₀ two_ne_zero, add_sub_cancel]
  have least : lowEnd (2 ^ 52) e = 4 * 2 ^ 52 - 1 := by
    rw [lowEnd, if_pos ⟨by decide, above⟩]
  have low := rounds.low
  rw [least, unit, power, ← mul_assoc, ← mul_assoc] at low
  have low := le_of_mul_le_mul_right low pos
  rw [zpow_add₀ two_ne_zero, unit, power, mul_right_comm] at below
  have high := lt_of_mul_lt_mul_right below pos.le
  norm_num at low high
  apply located.roundedMantissa_eq
  · norm_num
    linarith
  · norm_num
    linarith
  · intro odd
    contradiction

/-- Wherever a significand with its accuracy locates a value, it is rounded to the number to which
the value rounds. -/
theorem roundWithAccuracy_eq (rounds : RoundsTo m e x) (c : Canonical m e) {n : Nat} {f : Int}
    {a : Accuracy}
    (located : Locates (ExtendedMantissa.ofMantissaAndAccuracy n a) (x / 2 ^ f))
    (fine : f ≤ Format.binary64.targetExponent (totalExponent n f)) (s : Sign) :
    roundWithAccuracy Format.binary64 s n f a = .finite s m e c.pos := by
  obtain ⟨above, below⟩ := located.bounds
  rw [mantissa_ofMantissaAndAccuracy] at above below
  have above := (le_div_iff₀ (zpow_two_pos f)).mp above
  have below := (div_lt_iff₀ (zpow_two_pos f)).mp below
  obtain ⟨k, target⟩ := Int.le.dest fine
  rcases exponent_eq_or rounds c below above fine with equal | ⟨equal, rfl, inner, small⟩
  · obtain rfl : f + k = e := target.trans equal
    have rounded := rounds.roundedMantissa_eq (located.shiftRight_zpow k)
    exact roundWithAccuracy_of_shifts (j := 0) s c.pos target.symm rounded
      c.rounded.targetExponent_eq rfl (add_zero _)
  · -- Just below a power of two, rounding up carries, and the sum takes one more shift.
    have exponent : f + k = e - 1 := target.trans equal
    have rounded := rounds.roundedMantissa_eq_two_pow inner small
      (exponent ▸ located.shiftRight_zpow k)
    have second : Format.binary64.targetExponent (totalExponent (2 ^ 53) (f + k)) = e := by
      rw [targetExponent_eq, Nat.log2_two_pow, exponent]
      omega
    exact roundWithAccuracy_of_shifts (j := 1) s c.pos target.symm rounded second (by rfl)
      (by omega)

end QuantumCircuit.Binary64
