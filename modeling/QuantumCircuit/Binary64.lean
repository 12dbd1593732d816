/-!
# Exact values of 64-bit floating-point numbers

A finite number is `± m · 2^e` with natural `m`.  This file reads the three parts off a number,
builds the number nearest to given parts, and from the two computes the remainder of a division
without any rounding: on a common exponent it is a remainder of natural numbers, and it never has
more significant bits than its operands.
-/

namespace QuantumCircuit.Binary64

open Float.Model (UnpackedFloat Format)

/-- A finite value `± significand · 2^exponent`. -/
structure Parts where
  /-- Whether the sign bit is set. -/
  negative : Bool
  /-- The absolute value in units of `2^exponent`. -/
  significand : Nat
  /-- The binary exponent. -/
  exponent : Int
deriving DecidableEq

/-- The parts of a finite number; infinities and not-a-number have none. -/
def parts? (x : Float) : Option Parts :=
  match x.toModel.unpack with
  | .zero s => some ⟨s matches .negative, 0, 0⟩
  | .finite s m e _ => some ⟨s matches .negative, m, e⟩
  | .infinity _ => none
  | .notANumber => none

/-- The number nearest to the given parts. -/
def ofParts (p : Parts) : Float :=
  let sign : UnpackedFloat.Sign := if p.negative then .negative else .positive
  Float.ofModel <| Float.Model.pack <|
    if p.significand = 0 then .zero sign
    else UnpackedFloat.round Format.binary64 sign p.significand p.exponent

/-- The remainder of `a` by `b` with the sign of `a`: on the smaller of the two exponents both are
integers, and so is the remainder. -/
def Parts.remainder (a b : Parts) : Parts :=
  let e := min a.exponent b.exponent
  let m := a.significand <<< (a.exponent - e).toNat
  let n := b.significand <<< (b.exponent - e).toNat
  ⟨a.negative, m % n, e⟩

/-- The remainder of `x` by `y` that lies in `[0, |y|]`: the exact remainder with the sign of `x`,
shifted by `|y|` if it is negative. -/
def floorRemainder (x y : Float) : Float :=
  match parts? x, parts? y with
  | some a, some b =>
      if b.significand = 0 then 0.0 / 0.0
      else
        let r := ofParts (a.remainder b)
        if r < 0.0 then r + y.abs else r
  | some _, none => if y.isNaN then y else x
  | none, _ => 0.0 / 0.0

end QuantumCircuit.Binary64
