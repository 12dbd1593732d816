import Mathlib
import QuantumCircuit.Binary64

/-!
# Canonical parts of floating-point numbers

A finite number other than zero has one pair of a significand and an exponent among the canonical
ones: the significand has 53 bits, or less at the least exponent.  Canonical parts are unpacked as
they were packed, and unpacking a number gives canonical parts.
-/

namespace QuantumCircuit.Binary64

open Float.Model UnpackedFloat

/-- Parts that are stored as they are. -/
structure Canonical (m : Nat) (e : Int) : Prop where
  /-- The significand is not zero. -/
  pos : 0 < m
  /-- The significand has at most 53 bits. -/
  bits : m < 2 ^ 53
  /-- The exponent is not too small. -/
  least : -1074 ≤ e
  /-- The exponent is not too large. -/
  greatest : e ≤ 971
  /-- The significand has 53 bits, unless the exponent is the least. -/
  normal : 2 ^ 52 ≤ m ∨ e = -1074

/-! ## The bits of a number -/

theorem toNat_implicit_append (m : BitVec 52) : (1#1 ++ m).toNat = 2 ^ 52 + m.toNat := by
  rw [BitVec.toNat_append, ← Nat.shiftLeft_add_eq_or_of_lt m.isLt]
  rfl

/-- What is unpacked from a sign, an exponent and a significand. -/
theorem unpack_packComponents (s : Sign) (e : BitVec 11) (m : BitVec 52) :
    UnpackedFloat.unpack Format.binary64 (packComponents Format.binary64 s e m) =
      if e = -1#11 then if m = 0#52 then .infinity s else .notANumber
      else if e = 0#11 then
        if pos : 0 < m.toNat then .finite s m.toNat (-1074) pos else .zero s
      else .finite s (2 ^ 52 + m.toNat) (e.toNat - 1075) (by omega) := by
  rw [UnpackedFloat.unpack]
  simp only [unpackMantissa_packComponents, unpackExponent_packComponents,
    unpackSign_packComponents, Sign.ofBitVec_toBitVec, toNat_implicit_append]
  by_cases infinite : e = -1#11
  · rw [if_pos infinite, if_pos infinite]
  · rw [if_neg infinite, if_neg infinite]
    by_cases least : e = 0#11
    · rw [if_pos least, if_pos least]
      by_cases zero : m = 0#52
      · rw [dif_pos zero, dif_neg]
        rw [zero]
        decide
      · have pos : 0 < m.toNat := BitVec.toNat_pos_of_ne_zero zero
        rw [dif_neg zero, dif_pos pos, least]
        rfl
    · rw [if_neg least, if_neg least]
      rfl

/-! ## Packing and unpacking -/

/-- The bits of a number with 53 bits in its significand. -/
theorem pack_normal {m : Nat} {e : Int} (c : Canonical m e) (normal : 2 ^ 52 ≤ m) (s : Sign)
    (pos : 0 < m) : UnpackedFloat.pack Format.binary64 (.finite s m e pos) =
      packComponents Format.binary64 s (BitVec.ofNat 11 (e + 1075).toNat) (BitVec.ofNat 52 m) := by
  have log : m.log2 = 52 := (Nat.log2_eq_iff (Nat.ne_of_gt pos)).mpr ⟨normal, c.bits⟩
  have least := c.least
  have greatest := c.greatest
  have biased : e + Format.binary64.exponentBias + Format.binary64.mantissaBitsWithoutImplicit =
      e + 1075 := by
    change e + (1023 : Nat) + (52 : Nat) = _
    omega
  have small : ¬ 2 ^ Format.binary64.exponentBits ≤ (e + 1075).toNat + 1 := by
    change ¬ 2048 ≤ _
    omega
  rw [UnpackedFloat.pack, biased, log]
  exact (if_neg small).trans (if_pos rfl)

/-- The bits of a number with less than 53 bits in its significand. -/
theorem pack_subnormal {m : Nat} (small : m < 2 ^ 52) (s : Sign) (pos : 0 < m) :
    UnpackedFloat.pack Format.binary64 (.finite s m (-1074) pos) =
      packComponents Format.binary64 s 0#11 (BitVec.ofNat 52 m) := by
  have log : m.log2 < 52 := (Nat.log2_lt (Nat.ne_of_gt pos)).mpr small
  have bits : ¬ m.log2 + 1 = Format.binary64.mantissaBits := by
    change ¬ m.log2 + 1 = 53
    omega
  rw [UnpackedFloat.pack, if_neg bits]
  exact if_neg (by decide)

theorem unpack_pack_eq (u : UnpackedFloat) : (Float.Model.pack u).unpack =
    UnpackedFloat.unpack Format.binary64 (UnpackedFloat.pack Format.binary64 u) :=
  rfl

/-- Canonical parts are unpacked as they were packed. -/
theorem unpack_pack {m : Nat} {e : Int} (c : Canonical m e) (s : Sign) (pos : 0 < m) :
    (Float.Model.pack (.finite s m e pos)).unpack = .finite s m e pos := by
  have bits := c.bits
  have least := c.least
  have greatest := c.greatest
  rw [unpack_pack_eq]
  by_cases normal : 2 ^ 52 ≤ m
  · have exponent : (BitVec.ofNat 11 (e + 1075).toNat).toNat = (e + 1075).toNat := by
      rw [BitVec.toNat_ofNat]
      omega
    have finite : BitVec.ofNat 11 (e + 1075).toNat ≠ -1#11 := by
      intro equal
      have value : (e + 1075).toNat = 2047 := exponent.symm.trans (congrArg BitVec.toNat equal)
      omega
    have notLeast : BitVec.ofNat 11 (e + 1075).toNat ≠ 0#11 := by
      intro equal
      have value : (e + 1075).toNat = 0 := exponent.symm.trans (congrArg BitVec.toNat equal)
      omega
    rw [pack_normal c normal, unpack_packComponents, if_neg finite, if_neg notLeast]
    congr 1
    · rw [BitVec.toNat_ofNat]
      omega
    · omega
  · obtain rfl : e = -1074 := c.normal.resolve_left normal
    have significand : (BitVec.ofNat 52 m).toNat = m := by
      rw [BitVec.toNat_ofNat]
      omega
    rw [pack_subnormal (Nat.lt_of_not_le normal), unpack_packComponents, if_neg (by decide),
      if_pos rfl, dif_pos (significand.symm ▸ pos)]
    congr 1

/-- The parts that a finite number is unpacked to are canonical. -/
theorem canonical_of_unpack {v : Float.Model} {s : Sign} {m : Nat} {e : Int} {pos : 0 < m}
    (unpacked : v.unpack = .finite s m e pos) : Canonical m e := by
  obtain ⟨sign, exponent, significand, parts⟩ : ∃ (s : Sign) (e : BitVec 11) (m : BitVec 52),
      packComponents Format.binary64 s e m = v.toBits.toBitVec :=
    ⟨_, _, _, @packComponents_unpackSign_unpackExponent_unpackMantissa Format.binary64 _⟩
  have small := significand.isLt
  have below := exponent.isLt
  rw [Float.Model.unpack, ← parts, unpack_packComponents] at unpacked
  split_ifs at unpacked with infinite zero least positive
  · injection unpacked with _ isM isE
    exact ⟨by omega, by omega, by omega, by omega, .inr isE.symm⟩
  · injection unpacked with _ isM isE
    have notZero : exponent.toNat ≠ 0 := fun equal => least (BitVec.eq_of_toNat_eq equal)
    have notMax : exponent.toNat ≠ 2047 := fun equal => infinite (BitVec.eq_of_toNat_eq equal)
    exact ⟨by omega, by omega, by omega, by omega, .inl (by omega)⟩

end QuantumCircuit.Binary64
