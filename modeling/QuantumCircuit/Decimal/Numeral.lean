import QuantumCircuit.Decimal.Shortest

/-!
# Written numbers

A `Numeral` is a number as it is written: a sign, whole digits, digits after the point, and
possibly an exponent.  It is data, so writing a number means choosing a numeral, and reading one
means computing the nearest floating-point number, from as many digits as can matter.

How floating-point numbers are written is a `NumberStyle`.  There are two: `NumberStyle.plain`, for
text that people read, and `NumberStyle.json`, for data.
-/

namespace QuantumCircuit

/-- A decimal with at most `count` digits and one more: if there are more than `count`, a one takes
the place of those that follow. -/
def Decimal.limit (count : Nat) (d : Decimal) : Decimal :=
  let excess := digitCount d.digits - count
  if excess = 0 then d
  else ⟨10 * (d.digits / Nat.pow 10 excess) + 1, d.exponent + (excess - 1 : Nat)⟩

/-- A number as it is written in base ten. -/
structure Numeral where
  /-- Whether a minus sign stands in front. -/
  negative : Bool
  /-- The part before the point. -/
  whole : Nat
  /-- The digits after the point; without any there is no point. -/
  fraction : List (Fin 10)
  /-- The exponent, if one is written. -/
  exponent : Option Int
deriving DecidableEq

namespace Numeral

/-- The numeral of a natural number. -/
def ofNat (n : Nat) : Numeral :=
  ⟨false, n, [], none⟩

/-- The last digit of a natural number. -/
def digit (n : Nat) : Fin 10 :=
  ⟨n % 10, Nat.mod_lt n (by decide)⟩

/-- The character of a digit. -/
def digitChar (d : Fin 10) : Char :=
  Nat.digitChar d.val

/-- The characters of a written number.  An exponent always has a sign and is not padded. -/
def chars (n : Numeral) : List Char :=
  (if n.negative then ['-'] else [])
    ++ Nat.toDigits 10 n.whole
    ++ (match n.fraction with
      | [] => []
      | fraction => '.' :: fraction.map digitChar)
    ++ (match n.exponent with
      | none => []
      | some e => 'e' :: (if e < 0 then '-' else '+') :: Nat.toDigits 10 e.natAbs)

/-- The text of a written number. -/
def text (n : Numeral) : String :=
  String.ofList n.chars

/-- The digits as one natural number, read without the point. -/
def significand (n : Numeral) : Nat :=
  n.fraction.foldl (fun acc d => 10 * acc + d.val) n.whole

/-- The power of ten by which the significand is scaled. -/
def scale (n : Numeral) : Int :=
  n.exponent.getD 0 - n.fraction.length

/-- A number without the zeros at the end of its fraction. -/
def trim (n : Numeral) : Numeral :=
  { n with fraction := (n.fraction.reverse.dropWhile fun d => d.val == 0).reverse }

/-- The absolute value as digits and a power of ten. -/
def decimal (n : Numeral) : Decimal :=
  ⟨n.trim.significand, n.trim.scale⟩

/-- The significant digits with which a number is read.  Numbers halfway between two
floating-point numbers have no more. -/
def maxDigits : Nat :=
  768

/-- The floating-point number nearest to a numeral; a minus sign sets the sign bit of zero too.

If there are more than `maxDigits` digits, a one stands for those that follow.  This tells on which
side of a halfway point the number lies, and puts a number above it whose further digits are all
zeros of its whole part. -/
def toFloat (n : Numeral) : Float :=
  let d := n.decimal.limit maxDigits
  let x := Float.ofScientific d.digits (d.exponent < 0) d.exponent.natAbs
  if n.negative then -x else x

end Numeral

/-- How floating-point numbers are written. -/
structure NumberStyle where
  /-- Which of two equally near shortest decimals is written. -/
  tie : Tie
  /-- Whether a whole number is written with `.0`. -/
  wholePoint : Bool
  /-- Whether a number whose first digit stands for `10^e` is written without an exponent. -/
  positional : Int → Bool

namespace NumberStyle

/-- The style of readable text: never an exponent, no `.0`, and a tie goes away from zero. -/
def plain : NumberStyle :=
  ⟨.awayFromZero, false, fun _ => true⟩

/-- The style of data: whole numbers end in `.0`, from `10^-5` up to below `10^16` there is no
exponent, and a tie goes to the even digit. -/
def json : NumberStyle :=
  ⟨.toEven, true, fun e => -5 ≤ e && e < 16⟩

/-- The last `count` digits of `n`, zeros in front included. -/
def lastDigits : Nat → Nat → List (Fin 10)
  | 0, _ => []
  | count + 1, n => lastDigits count (n / 10) ++ [Numeral.digit n]

/-- The numeral of `± d` in a style. -/
def numeral (style : NumberStyle) (negative : Bool) (d : Decimal) : Numeral :=
  let length := Decimal.digitCount d.digits
  let leading := d.exponent + length - 1
  if style.positional leading || d.digits == 0 then
    if d.exponent < 0 then
      let places := (-d.exponent).toNat
      ⟨negative, d.digits / Nat.pow 10 places, lastDigits places d.digits, none⟩
    else
      let zeros := Nat.pow 10 d.exponent.toNat
      ⟨negative, d.digits * zeros, if style.wholePoint then [Numeral.digit 0] else [], none⟩
  else
    let places := length - 1
    ⟨negative, d.digits / Nat.pow 10 places, lastDigits places d.digits, some leading⟩

/-- The numeral of a finite floating-point number. -/
def numeral? (style : NumberStyle) (x : Float) : Option Numeral :=
  (Binary64.parts? x).map fun p =>
    style.numeral p.negative <|
      if p.significand = 0 then ⟨0, 0⟩
      else Decimal.shortest style.tie p.significand p.exponent

/-- The readable text of any floating-point number. -/
def plainText (x : Float) : String :=
  match plain.numeral? x with
  | some n => n.text
  | none => if x.isNaN then "NaN" else if x < 0.0 then "-inf" else "inf"

end NumberStyle

end QuantumCircuit
