import QuantumCircuit.Decimal.Numeral

/-!
# JSON values

Numbers are kept as they are written, and the members of an object in their order, so nothing of a
text but its blanks is lost in its value.

How texts are written and read, and how floating-point numbers are, is up to a `Library`.  Encoders
and decoders go without knowing more of it than that.

A text may escape half of a pair of 16-bit units where no other half follows.  Such a string is
well formed, but it stands for no characters.  It is the value `Json.unpaired`, as is an object
with such a name.
-/

namespace QuantumCircuit

/-- A JSON value. -/
inductive Json where
  /-- Nothing. -/
  | null
  /-- A truth value. -/
  | bool (value : Bool)
  /-- A number as it is written. -/
  | number (value : Numeral)
  /-- A string. -/
  | string (value : String)
  /-- A list of values. -/
  | array (items : List Json)
  /-- A list of named values. -/
  | object (members : List (String × Json))
  /-- A string with half of a pair in it, or an object in which a name is such a string. -/
  | unpaired

namespace Json

/-! ## Libraries -/

/-- How JSON texts are written and read. -/
class Library where
  /-- The text that is written for a value. -/
  text : Json → String
  /-- The value that a text stands for, however deep it is nested. -/
  parse? : String → Option Json
  /-- The number that is written for a floating-point number, if that is finite. -/
  numeral? : Float → Option Numeral
  /-- The floating-point number that is read from a written one. -/
  toFloat : Numeral → Float
  /-- The levels of nesting that a decoder may enter. -/
  maxNesting : Nat

/-- The text of a value. -/
def text [Library] (j : Json) : String :=
  Library.text j

/-- The value of a text. -/
def parse? [Library] (text : String) : Option Json :=
  Library.parse? text

/-- What is asked of a library: it reads back what it writes. -/
class LawfulLibrary [Library] : Prop where
  /-- The text of a value stands for the value. -/
  parse?_text : ∀ j : Json, parse? j.text = some j
  /-- A finite number is written, and is read back bit for bit. -/
  toFloat_numeral? : ∀ {x : Float}, x.isFinite = true →
    ∃ n, Library.numeral? x = some n ∧ Library.toFloat n = x

/-! ## Common values -/

/-- A natural number. -/
def ofNat (n : Nat) : Json :=
  .number (.ofNat n)

/-- A floating-point number; what is not finite is null. -/
def ofFloat [Library] (x : Float) : Json :=
  match Library.numeral? x with
  | some n => .number n
  | none => .null

/-- A list of values. -/
def ofList {α : Type} (encode : α → Json) (l : List α) : Json :=
  .array (l.map encode)

end Json

end QuantumCircuit
