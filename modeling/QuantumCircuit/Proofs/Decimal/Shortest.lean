import QuantumCircuit.Decimal.Numeral
import QuantumCircuit.Proofs.Decimal.Rounding

/-!
# The shortest decimal rounds to the number

Every decimal that `shortest` tries lies on a grid in the neighbourhood of the number, so it rounds
to the number, and dropping zeros at its end does not change it.  Should no grid have a point there,
the exact value is taken.
-/

namespace QuantumCircuit.Decimal

open Binary64

/-- The rational number for which a decimal stands. -/
def value (d : Decimal) : ℚ :=
  d.digits * 10 ^ d.exponent

theorem value_dropZeros (fuel : Nat) (d : Decimal) : (dropZeros fuel d).value = d.value := by
  induction fuel generalizing d with
  | zero => rfl
  | succ fuel ih =>
      rw [dropZeros]
      split_ifs with zero
      · have digits : (d.digits : ℚ) = (d.digits / 10 : ℕ) * 10 := by
          exact_mod_cast (by omega : d.digits = d.digits / 10 * 10)
        rw [ih, value, value, digits, zpow_add_one₀ (by norm_num)]
        ring
      · rfl

theorem digits_dropZeros_le (fuel : Nat) (d : Decimal) :
    (dropZeros fuel d).digits ≤ d.digits := by
  induction fuel generalizing d with
  | zero => exact Nat.le_refl _
  | succ fuel ih =>
      rw [dropZeros]
      split_ifs with zero
      · exact (ih _).trans (Nat.div_le_self _ _)
      · exact Nat.le_refl _

variable {m : Nat} {e : Int}

/-- The factor by which a neighbourhood is scaled to be given in integers. -/
def scale (e : Int) : Nat :=
  if 0 ≤ e then Nat.pow 2 e.toNat else Nat.pow 5 (-e).toNat

theorem neighbourhood_eq (m : Nat) (e : Int) : neighbourhood m e =
    ⟨4 * m * scale e, lowEnd m e * scale e, (4 * m + 2) * scale e, m % 2 = 0⟩ :=
  rfl

theorem scale_mul_zpow (e : Int) : (scale e : ℚ) * 10 ^ unitExponent e = 2 ^ e := by
  rw [scale, unitExponent]
  split_ifs with whole
  · obtain ⟨k, rfl⟩ := Int.eq_ofNat_of_zero_le whole
    rw [min_eq_right whole, zpow_zero, mul_one, zpow_natCast]
    exact Nat.cast_pow 2 k
  · obtain ⟨k, negated⟩ := Int.eq_ofNat_of_zero_le (by omega : 0 ≤ -e)
    obtain rfl : e = -k := by omega
    have power : ((Nat.pow 5 k : ℕ) : ℚ) = 5 ^ k := Nat.cast_pow 5 k
    rw [min_eq_left (by omega), neg_neg, Int.toNat_natCast, power, zpow_neg, zpow_neg,
      zpow_natCast, zpow_natCast, ← div_eq_mul_inv, div_eq_iff (by positivity), inv_mul_eq_div,
      eq_div_iff (by positivity), ← mul_pow]
    norm_num

/-- What lies in a neighbourhood rounds to the number. -/
theorem roundsTo_of_contains {point : Nat} {x : ℚ}
    (inside : (neighbourhood m e).contains point = true)
    (unit : 4 * x = point * 10 ^ unitExponent e) : RoundsTo m e x := by
  have pos : (0 : ℚ) < 10 ^ unitExponent e := by positivity
  have low : (lowEnd m e : ℚ) * 2 ^ e = (lowEnd m e * scale e : ℕ) * 10 ^ unitExponent e := by
    rw [← scale_mul_zpow e, Nat.cast_mul, mul_assoc]
  have high : ((4 * m + 2 : ℕ) : ℚ) * 2 ^ e =
      ((4 * m + 2) * scale e : ℕ) * 10 ^ unitExponent e := by
    rw [← scale_mul_zpow e, Nat.cast_mul, mul_assoc]
  rw [neighbourhood_eq, Neighbourhood.contains] at inside
  have weak : lowEnd m e * scale e ≤ point ∧ point ≤ (4 * m + 2) * scale e := by
    split at inside
    · simpa only [Bool.and_eq_true, decide_eq_true_eq] using inside
    · have inner := Bool.and_eq_true_iff.mp inside
      exact ⟨(of_decide_eq_true inner.1).le, (of_decide_eq_true inner.2).le⟩
  have strict : m % 2 = 1 → lowEnd m e * scale e < point ∧ point < (4 * m + 2) * scale e := by
    intro odd
    have notClosed : ¬ decide (m % 2 = 0) = true := by
      rw [decide_eq_true_eq]
      omega
    rw [if_neg notClosed] at inside
    simpa only [Bool.and_eq_true, decide_eq_true_eq] using inside
  constructor
  · rw [low, unit]
    exact mul_le_mul_of_nonneg_right (by exact_mod_cast weak.1) pos.le
  · rw [high, unit]
    exact mul_le_mul_of_nonneg_right (by exact_mod_cast weak.2) pos.le
  · intro odd
    rw [low, high, unit]
    exact ⟨mul_lt_mul_of_pos_right (by exact_mod_cast (strict odd).1) pos,
      mul_lt_mul_of_pos_right (by exact_mod_cast (strict odd).2) pos⟩

/-- A point of a grid that is taken lies in the neighbourhood, next to the value. -/
theorem gridPoint?_spec {tie : Tie} {n : Neighbourhood} {step p : Nat}
    (found : gridPoint? tie n step = some p) :
    n.contains (4 * step * p) = true ∧ p ≤ n.value / (4 * step) + 1 := by
  unfold gridPoint? at found
  dsimp only at found
  split at found
  · next below above =>
      have either : p = n.value / (4 * step) ∨ p = n.value / (4 * step) + 1 := by
        cases tie <;> split_ifs at found <;> simp only [Option.some.injEq] at found <;> omega
      rcases either with rfl | rfl
      · exact ⟨below, Nat.le_succ _⟩
      · exact ⟨above, Nat.le_refl _⟩
  · next below _ =>
      obtain rfl := Option.some.inj found
      exact ⟨below, Nat.le_succ _⟩
  · next _ above =>
      obtain rfl := Option.some.inj found
      exact ⟨above, Nat.le_refl _⟩
  · contradiction

theorem value_quarter (m : Nat) (e : Int) : (neighbourhood m e).value / 4 = m * scale e := by
  rw [neighbourhood_eq, Nat.mul_assoc]
  exact Nat.mul_div_cancel_left _ (by decide)

/-- The shortest decimal rounds to the number. -/
theorem roundsTo_shortest (tie : Tie) (c : Canonical m e) :
    RoundsTo m e (shortest tie m e).value := by
  rw [shortest]
  dsimp only
  split
  · next d found =>
      obtain ⟨count, -, found⟩ := List.exists_of_findSome?_eq_some found
      obtain ⟨p, point, rfl⟩ := Option.map_eq_some_iff.mp found
      rw [value_dropZeros]
      apply roundsTo_of_contains (gridPoint?_spec point).1
      rw [value, zpow_add₀ (by norm_num), zpow_natCast, Nat.pow_eq]
      push_cast
      ring
  · -- No grid has a point in the neighbourhood: the decimal is the number itself.
    have exact : value ⟨(neighbourhood m e).value / 4, unitExponent e⟩ = m * 2 ^ e := by
      rw [value, value_quarter, ← scale_mul_zpow e, Nat.cast_mul, mul_assoc]
    rw [exact]
    exact roundsTo_self c

theorem scale_le_pow {k : Nat} (least : -k ≤ e) (greatest : e ≤ k) : scale e ≤ 5 ^ k := by
  rw [scale]
  split_ifs with whole
  · exact (Nat.pow_le_pow_right (by decide) (by omega)).trans
      (Nat.pow_le_pow_left (by decide : 2 ≤ 5) k)
  · exact Nat.pow_le_pow_right (by decide) (by omega)

theorem scale_pos (e : Int) : 0 < scale e := by
  rw [scale]
  split_ifs
  · exact Nat.pow_pos (by decide)
  · exact Nat.pow_pos (by decide)

theorem five_pow_le (k : Nat) : 5 ^ (10 * k + 4) ≤ 10 ^ (7 * k + 3) := by
  rw [Nat.pow_add, Nat.pow_mul, Nat.pow_add, Nat.pow_mul]
  exact Nat.mul_le_mul (Nat.pow_le_pow_left (by decide) k) (by decide)

theorem digits_exact_lt_pow (c : Canonical m e) {k : Nat} (factor : scale e ≤ 10 ^ k) :
    m * scale e + 1 < 10 ^ (16 + k) := by
  have bits := c.bits
  have pos := scale_pos e
  rw [Nat.pow_add]
  calc
    m * scale e + 1 ≤ m * scale e + scale e := Nat.add_le_add_left pos _
    _ = (m + 1) * scale e := (Nat.succ_mul _ _).symm
    _ < 10 ^ 16 * scale e := Nat.mul_lt_mul_of_pos_right (by omega) pos
    _ ≤ 10 ^ 16 * 10 ^ k := Nat.mul_le_mul_left _ factor

/-- The exact value of a number has no more digits than those with which numbers are read. -/
theorem digits_exact_lt (c : Canonical m e) : m * scale e + 1 < 10 ^ Numeral.maxDigits := by
  have least := c.least
  have greatest := c.greatest
  -- `5^10` is less than `10^7`, which suffices: no power has to be computed.
  have five : scale e ≤ 5 ^ (10 * 107 + 4) := scale_le_pow (by omega) (by omega)
  have places : Numeral.maxDigits = 16 + (7 * 107 + 3) := rfl
  exact places ▸ digits_exact_lt_pow c (five.trans (five_pow_le 107))

/-- The shortest decimal has no more digits than those with which numbers are read. -/
theorem digits_shortest_lt (tie : Tie) (c : Canonical m e) :
    (shortest tie m e).digits < 10 ^ Numeral.maxDigits := by
  have most := digits_exact_lt c
  rw [← value_quarter] at most
  rw [shortest]
  dsimp only
  split
  · next d found =>
      obtain ⟨count, -, found⟩ := List.exists_of_findSome?_eq_some found
      obtain ⟨p, point, rfl⟩ := Option.map_eq_some_iff.mp found
      have near := (gridPoint?_spec point).2
      rw [← Nat.div_div_eq_div_mul] at near
      calc
        _ ≤ p := digits_dropZeros_le 17 _
        _ ≤ _ := near
        _ ≤ (neighbourhood m e).value / 4 + 1 := Nat.succ_le_succ (Nat.div_le_self _ _)
        _ < _ := most
  · exact (Nat.le_succ _).trans_lt most

end QuantumCircuit.Decimal
