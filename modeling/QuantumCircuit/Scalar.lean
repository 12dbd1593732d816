import QuantumCircuit.Binary64

/-!
# Numbers that parameters, phases and amplitudes are made of

Circuits are computed with floating-point numbers and reasoned about over the reals, so the
arithmetic is a parameter.  `Scalar` holds what parameters and phases need, `TrigScalar` adds what
gate matrices need.  The instances for `Float` are the ones that run: each operation is a single
rounded operation of the format, and no two are fused.
-/

namespace QuantumCircuit

/-- The arithmetic of parameters and phases. -/
class Scalar (S : Type) extends Add S, Sub S, Mul S, Neg S, BEq S where
  /-- The scalar nearest to a natural number. -/
  ofNat : Nat → S
  /-- Half a turn. -/
  pi : S
  /-- The absolute value. -/
  abs : S → S
  /-- Strict comparison. -/
  lt : S → S → Bool
  /-- Comparison. -/
  le : S → S → Bool
  /-- Whether a value is a number and not infinite. -/
  isFinite : S → Bool
  /-- The remainder of a division that is not negative. -/
  floorRemainder : S → S → S

namespace Scalar

variable {S : Type} [Scalar S]

/-- Zero. -/
def zero : S :=
  ofNat 0

/-- One. -/
def one : S :=
  ofNat 1

/-- A whole turn. -/
def turn : S :=
  ofNat 2 * pi

/-- Whether a scalar equals zero. -/
def isZero (x : S) : Bool :=
  x == zero

end Scalar

/-- The arithmetic of gate matrices. -/
class TrigScalar (S : Type) extends Scalar S where
  /-- Half of a value. -/
  half : S → S
  /-- The square root of one half. -/
  sqrtHalf : S
  /-- The sine. -/
  sin : S → S
  /-- The cosine. -/
  cos : S → S

instance : Scalar Float where
  ofNat := Float.ofNat
  pi := 3.141592653589793
  abs := Float.abs
  lt x y := x < y
  le x y := x ≤ y
  isFinite := Float.isFinite
  floorRemainder := Binary64.floorRemainder

instance : TrigScalar Float where
  half x := x / 2.0
  sqrtHalf := 0.7071067811865476
  sin := Float.sin
  cos := Float.cos

end QuantumCircuit
