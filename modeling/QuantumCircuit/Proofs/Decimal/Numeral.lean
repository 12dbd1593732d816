import QuantumCircuit.Proofs.Decimal.Reading
import QuantumCircuit.Proofs.Decimal.Shortest

/-!
# Written numbers are read back

A numeral stands for the decimal that it was made from, whatever its style, and a shortest decimal
has few enough digits to be read exactly.  It rounds to the floating-point number that it was
selected for, so this number is read back, with its sign and bit for bit.
-/

namespace QuantumCircuit

open Float.Model UnpackedFloat

namespace Numeral

/-! ## The decimal for which a numeral stands -/

theorem foldl_zeros {l : List (Fin 10)} (zeros : ∀ d ∈ l, d.val = 0) (whole : Nat) :
    l.foldl (fun acc d => 10 * acc + d.val) whole = whole * 10 ^ l.length := by
  induction l generalizing whole with
  | nil => exact (Nat.mul_one whole).symm
  | cons d l ih =>
      rw [List.foldl_cons, ih fun d mem => zeros d (List.mem_cons_of_mem _ mem),
        zeros d List.mem_cons_self, List.length_cons, Nat.pow_succ]
      ring

/-- The fraction of a numeral is that of the trimmed one, followed by zeros. -/
theorem exists_fraction_eq (n : Numeral) : ∃ zeros : List (Fin 10),
    n.fraction = n.trim.fraction ++ zeros ∧ ∀ d ∈ zeros, d.val = 0 := by
  refine ⟨(n.fraction.reverse.takeWhile fun d => d.val == 0).reverse, ?_, ?_⟩
  · rw [trim, ← List.reverse_append, List.takeWhile_append_dropWhile, List.reverse_reverse]
  · intro d mem
    have taken := List.mem_reverse.mp mem
    have zero := List.mem_takeWhile_imp (p := fun d : Fin 10 => d.val == 0) taken
    exact beq_iff_eq.mp zero

theorem significand_trim (n : Numeral) : ∃ k : Nat,
    n.significand = n.trim.significand * 10 ^ k ∧ n.trim.scale = n.scale + k := by
  obtain ⟨zeros, fraction, all⟩ := exists_fraction_eq n
  refine ⟨zeros.length, ?_, ?_⟩
  · rw [significand, fraction, List.foldl_append, foldl_zeros all]
    rfl
  · rw [scale, scale, fraction, List.length_append]
    change n.exponent.getD 0 - _ = _
    omega

/-- Zeros at the end of the fraction do not change the value. -/
theorem value_decimal (n : Numeral) : n.decimal.value = n.significand * 10 ^ n.scale := by
  obtain ⟨k, significand, scale⟩ := significand_trim n
  rw [Decimal.value, decimal, significand, scale, zpow_add₀ (by norm_num), zpow_natCast]
  push_cast
  ring

theorem digits_decimal_le (n : Numeral) : n.decimal.digits ≤ n.significand := by
  obtain ⟨k, significand, -⟩ := significand_trim n
  rw [significand]
  exact Nat.le_mul_of_pos_right _ (Nat.pow_pos (by decide))

/-- A numeral with nothing but zeros after the point is a natural number. -/
theorem decimal_whole {n : Numeral} (zeros : ∀ d ∈ n.fraction, d.val = 0)
    (positional : n.exponent = none) : n.decimal = ⟨n.whole, 0⟩ := by
  have trimmed : n.trim.fraction = [] := by
    rw [trim, List.reverse_eq_nil_iff, List.dropWhile_eq_nil_iff]
    intro d mem
    exact beq_iff_eq.mpr (zeros d (List.mem_reverse.mp mem))
  rw [decimal, significand, scale, trimmed]
  change Decimal.mk n.whole (n.exponent.getD 0 - 0) = _
  rw [positional]
  rfl

end Numeral

namespace NumberStyle

theorem length_lastDigits (count n : Nat) : (lastDigits count n).length = count := by
  induction count generalizing n with
  | zero => rfl
  | succ count ih => rw [lastDigits, List.length_append, ih, List.length_singleton]

/-- The last digits of a number, read after the others. -/
theorem foldl_lastDigits (count n : Nat) :
    (lastDigits count n).foldl (fun acc d => 10 * acc + d.val) (n / 10 ^ count) = n := by
  induction count generalizing n with
  | zero => exact Nat.div_one n
  | succ count ih =>
      rw [lastDigits, List.foldl_append, Nat.pow_succ', ← Nat.div_div_eq_div_mul, ih]
      change 10 * (n / 10) + n % 10 = n
      omega

theorem negative_numeral (style : NumberStyle) (negative : Bool) (d : Decimal) :
    (style.numeral negative d).negative = negative := by
  rw [numeral]
  dsimp only
  split_ifs <;> rfl

/-- Where there is neither an exponent nor a fraction, a natural number is written. -/
theorem decimal_numeral_whole (style : NumberStyle) (negative : Bool) {d : Decimal}
    (positional : (style.positional (d.exponent + Decimal.digitCount d.digits - 1) ||
      d.digits == 0) = true) (whole : 0 ≤ d.exponent) :
    (style.numeral negative d).decimal = ⟨d.digits * 10 ^ d.exponent.toNat, 0⟩ := by
  have point : ∀ f ∈ (if style.wholePoint then [Numeral.digit 0] else []), f.val = 0 := by
    split
    · exact List.forall_mem_singleton.mpr rfl
    · exact fun _ mem => absurd mem List.not_mem_nil
  rw [numeral]
  dsimp only
  rw [if_pos positional, if_neg (not_lt.mpr whole)]
  exact Numeral.decimal_whole point rfl

/-- A number is written with its own digits, or as a natural number. -/
theorem numeral_cases (style : NumberStyle) (negative : Bool) (d : Decimal) :
    ((style.numeral negative d).significand = d.digits ∧
        (style.numeral negative d).scale = d.exponent) ∨
      0 ≤ d.exponent ∧
        (style.numeral negative d).decimal = ⟨d.digits * 10 ^ d.exponent.toNat, 0⟩ := by
  by_cases positional : (style.positional (d.exponent + Decimal.digitCount d.digits - 1) ||
    d.digits == 0) = true
  · by_cases whole : 0 ≤ d.exponent
    · exact .inr ⟨whole, style.decimal_numeral_whole negative positional whole⟩
    · left
      rw [numeral]
      dsimp only
      rw [if_pos positional, if_pos (not_le.mp whole)]
      constructor
      · exact foldl_lastDigits _ _
      · rw [Numeral.scale, length_lastDigits]
        change (0 : Int) - _ = _
        omega
  · left
    rw [numeral]
    dsimp only
    rw [if_neg positional]
    constructor
    · exact foldl_lastDigits _ _
    · rw [Numeral.scale, length_lastDigits]
      have some : 0 < Decimal.digitCount d.digits := Nat.length_toDigits_pos
      change d.exponent + Decimal.digitCount d.digits - 1 - _ = _
      omega

/-- A numeral stands for the decimal that it was made from. -/
theorem value_numeral (style : NumberStyle) (negative : Bool) (d : Decimal) :
    (style.numeral negative d).decimal.value = d.value := by
  rcases style.numeral_cases negative d with ⟨significand, scale⟩ | ⟨whole, decimal⟩
  · rw [Numeral.value_decimal, significand, scale, Decimal.value]
  · obtain ⟨k, exponent⟩ := Int.eq_ofNat_of_zero_le whole
    rw [decimal, Decimal.value, Decimal.value, exponent, Int.toNat_natCast, zpow_zero,
      zpow_natCast]
    push_cast
    ring

/-- A numeral has as many digits as its decimal, or those of a natural number. -/
theorem digits_numeral_lt (style : NumberStyle) (negative : Bool) {d : Decimal} {count : Nat}
    (few : d.digits < 10 ^ count) (small : d.value < 10 ^ count) :
    (style.numeral negative d).decimal.digits < 10 ^ count := by
  rcases style.numeral_cases negative d with ⟨significand, -⟩ | ⟨-, decimal⟩
  · exact (Numeral.digits_decimal_le _).trans_lt (significand ▸ few)
  · have value := style.value_numeral negative d
    rw [decimal, Decimal.value, zpow_zero, mul_one] at value
    rw [← value] at small
    rw [decimal]
    exact_mod_cast small

end NumberStyle

/-- A decimal with few digits is not shortened. -/
theorem Decimal.limit_of_lt {d : Decimal} {count : Nat} (some : 0 < count)
    (few : d.digits < 10 ^ count) : d.limit count = d := by
  have short : digitCount d.digits ≤ count :=
    (Nat.length_toDigits_le_iff (by decide) some).mpr few
  rw [limit]
  exact if_pos (Nat.sub_eq_zero_of_le short)

namespace Binary64

variable {m : Nat} {e : Int} {x : ℚ}

theorem two_zpow_le {i : Int} {k : Nat} (small : i ≤ 3 * k) : (2 : ℚ) ^ i ≤ 10 ^ k := by
  calc
    (2 : ℚ) ^ i ≤ 2 ^ ((3 * k : ℕ) : Int) := zpow_le_zpow_right₀ one_le_two (by omega)
    _ = (2 ^ 3) ^ k := by rw [zpow_natCast, pow_mul]
    _ ≤ 10 ^ k := pow_le_pow_left₀ (by norm_num) (by norm_num) k

/-- The sign of a number is its sign bit. -/
theorem neg_ofModel_pack (c : Canonical m e) :
    -Float.ofModel (Float.Model.pack (.finite .positive m e c.pos)) =
      .ofModel (Float.Model.pack (.finite .negative m e c.pos)) := by
  change Float.ofModel (Float.Model.pack (UnpackedFloat.neg (Float.Model.unpack _))) = _
  rw [unpack_pack c]
  rfl

/-- A numeral with few digits whose decimal rounds to a number is read as this number. -/
theorem toFloat_eq {n : Numeral} (rounds : RoundsTo m e n.decimal.value) (c : Canonical m e)
    (few : n.decimal.digits < 10 ^ Numeral.maxDigits) : n.toFloat =
      .ofModel (Float.Model.pack
        (.finite (if n.negative then .negative else .positive) m e c.pos)) := by
  rw [Numeral.toFloat, Decimal.limit_of_lt (by decide) few, float_ofScientific_eq rounds c]
  cases n.negative with
  | false => rfl
  | true => exact neg_ofModel_pack c

end Binary64

namespace NumberStyle

open Binary64

/-- The numeral of zero is read as zero with the same sign. -/
theorem toFloat_numeral_zero (style : NumberStyle) (negative : Bool) :
    (style.numeral negative ⟨0, 0⟩).toFloat =
      .ofModel (Float.Model.pack (.zero (if negative then .negative else .positive))) := by
  have positional : (style.positional ((0 : Int) + Decimal.digitCount 0 - 1) || 0 == 0) = true :=
    Bool.or_true _
  have decimal := style.decimal_numeral_whole negative (d := ⟨0, 0⟩) positional (Int.le_refl 0)
  rw [Numeral.toFloat, decimal, style.negative_numeral]
  cases negative <;> rfl

/-- The numeral of a shortest decimal is read as the number that it was selected for. -/
theorem toFloat_numeral_shortest (style : NumberStyle) (negative : Bool) {m : Nat} {e : Int}
    (c : Canonical m e) :
    (style.numeral negative (Decimal.shortest style.tie m e)).toFloat =
      .ofModel (Float.Model.pack
        (.finite (if negative then .negative else .positive) m e c.pos)) := by
  have greatest := c.greatest
  have rounds := Decimal.roundsTo_shortest style.tie c
  have exponent : e + 53 ≤ 3 * Numeral.maxDigits := by
    change e + 53 ≤ 3 * 768
    omega
  have small := (rounds.lt_zpow c).trans_le (two_zpow_le exponent)
  have few := style.digits_numeral_lt negative (Decimal.digits_shortest_lt style.tie c) small
  rw [← style.value_numeral negative] at rounds
  rw [toFloat_eq rounds c few, style.negative_numeral]

/-- Every finite number is read back as it is written, bit for bit, in any style. -/
theorem toFloat_numeral? (style : NumberStyle) {x : Float} (finite : x.isFinite = true) :
    ∃ n, style.numeral? x = some n ∧ n.toFloat = x := by
  have packed : Float.ofModel (Float.Model.pack x.toModel.unpack) = x := Float.ofBits_toBits x
  have unpackedFinite : x.toModel.unpack.isFinite = true := finite
  rw [numeral?, parts?]
  cases unpacked : x.toModel.unpack with
  | zero s =>
      rw [unpacked] at packed
      refine ⟨_, rfl, (style.toFloat_numeral_zero _).trans ?_⟩
      cases s <;> exact packed
  | finite s m e pos =>
      have c := canonical_of_unpack unpacked
      rw [unpacked] at packed
      refine ⟨_, rfl, ?_⟩
      dsimp only
      rw [if_neg (Nat.ne_of_gt pos), style.toFloat_numeral_shortest _ c]
      cases s <;> exact packed
  | infinity s =>
      rw [unpacked] at unpackedFinite
      contradiction
  | notANumber =>
      rw [unpacked] at unpackedFinite
      contradiction

end NumberStyle

end QuantumCircuit
