import QuantumCircuit.Binary64

/-!
# The shortest decimal that reads back

Among the decimals that round to a given floating-point number, `shortest` selects one with the
fewest digits, and of those the nearest to the number.  Everything is exact: a value `m · 2^e` is
an integer times a power of ten, the interval of reals that round to it has ends of the same kind,
and for one digit, two digits and so on only the two neighbours of the value on that decimal grid
have to be tested.

Two decimals of the same length can be equally near.  Which of them is taken is a parameter.
-/

namespace QuantumCircuit

/-- The value `digits · 10^exponent`. -/
structure Decimal where
  /-- The significant digits as one number. -/
  digits : Nat
  /-- The power of ten by which they are scaled. -/
  exponent : Int
deriving DecidableEq, Repr

/-- Which of two equally near neighbours is taken. -/
inductive Tie where
  /-- The one with an even last digit. -/
  | toEven
  /-- The one further from zero. -/
  | awayFromZero
deriving DecidableEq, Repr

namespace Decimal

/-- The number of decimal digits of `n`. -/
def digitCount (n : Nat) : Nat :=
  (Nat.toDigits 10 n).length

/-- Drops up to `fuel` zeros at the end of the digits, raising the exponent. -/
def dropZeros : Nat → Decimal → Decimal
  | 0, d => d
  | fuel + 1, d =>
      if d.digits ≠ 0 ∧ d.digits % 10 = 0 then dropZeros fuel ⟨d.digits / 10, d.exponent + 1⟩
      else d

/-- The reals that round to one floating-point number, around its value, in quarters of a unit. -/
structure Neighbourhood where
  /-- Four times the value. -/
  value : Nat
  /-- The lower end. -/
  low : Nat
  /-- The upper end. -/
  high : Nat
  /-- Whether the ends themselves round to the number. -/
  closed : Bool

/-- Whether a point, given in quarters of a unit, rounds to the number. -/
def Neighbourhood.contains (n : Neighbourhood) (point : Nat) : Bool :=
  if n.closed then n.low ≤ point && point ≤ n.high else n.low < point && point < n.high

/-- The neighbourhood of `m · 2^e`, in units of `10^unitExponent e`.  Below a power of two the next
number is half as far away as above it, except at the least exponent. -/
def neighbourhood (m : Nat) (e : Int) : Neighbourhood :=
  let scale := if 0 ≤ e then Nat.pow 2 e.toNat else Nat.pow 5 (-e).toNat
  let below := if m = 0x10000000000000 ∧ -1074 < e then 1 else 2
  { value := 4 * m * scale
    low := (4 * m - below) * scale
    high := (4 * m + 2) * scale
    closed := m % 2 = 0 }

/-- The power of ten in which `m · 2^e` is an integer. -/
def unitExponent (e : Int) : Int :=
  min e 0

/-- The point of the grid with step `step` that rounds to the number: the nearer of the two
neighbours of the value, if both do. -/
def gridPoint? (tie : Tie) (n : Neighbourhood) (step : Nat) : Option Nat :=
  let lower := n.value / (4 * step)
  match n.contains (4 * step * lower), n.contains (4 * step * (lower + 1)) with
  | true, true =>
      let twice := 2 * n.value
      let middle := 4 * step * (2 * lower + 1)
      if twice < middle then some lower
      else if middle < twice then some (lower + 1)
      else match tie with
        | .toEven => some (if lower % 2 = 0 then lower else lower + 1)
        | .awayFromZero => some (lower + 1)
  | true, false => some lower
  | false, true => some (lower + 1)
  | false, false => none

/-- The shortest decimal that reads back as the positive number `m · 2^e`.  Seventeen digits
suffice for every number. -/
def shortest (tie : Tie) (m : Nat) (e : Int) : Decimal :=
  let n := neighbourhood m e
  let length := digitCount (n.value / 4)
  let candidate (count : Nat) : Option Decimal :=
    let places := length - count
    (gridPoint? tie n (Nat.pow 10 places)).map fun p => ⟨p, unitExponent e + places⟩
  match (List.range' 1 17).findSome? candidate with
  | some d => dropZeros 17 d
  | none => ⟨n.value / 4, unitExponent e⟩

end Decimal

end QuantumCircuit
