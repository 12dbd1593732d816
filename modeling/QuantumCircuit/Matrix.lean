import QuantumCircuit.Scalar

/-!
# Complex numbers and matrices

Complex numbers over any scalars, with the products and polar forms written out, and matrices as
functions of row and column.
-/

namespace QuantumCircuit

/-- A complex number. -/
structure Complex (S : Type) where
  /-- The real part. -/
  re : S
  /-- The imaginary part. -/
  im : S
deriving DecidableEq

namespace Complex

variable {S : Type} [Scalar S]

/-- Zero. -/
def zero : Complex S :=
  ⟨Scalar.zero, Scalar.zero⟩

/-- One. -/
def one : Complex S :=
  ⟨Scalar.one, Scalar.zero⟩

/-- The imaginary unit. -/
def i : Complex S :=
  ⟨Scalar.zero, Scalar.one⟩

/-- A real number. -/
def ofReal (x : S) : Complex S :=
  ⟨x, Scalar.zero⟩

/-- An imaginary number. -/
def ofImag (x : S) : Complex S :=
  ⟨Scalar.zero, x⟩

instance : Inhabited (Complex S) := ⟨zero⟩

instance : Neg (Complex S) :=
  ⟨fun z => ⟨-z.re, -z.im⟩⟩

instance : Mul (Complex S) :=
  ⟨fun z w => ⟨z.re * w.re - z.im * w.im, z.re * w.im + z.im * w.re⟩⟩

/-- The number of a given radius and angle. -/
def ofPolar {S : Type} [TrigScalar S] (radius angle : S) : Complex S :=
  ⟨radius * TrigScalar.cos angle, radius * TrigScalar.sin angle⟩

end Complex

/-- The number of basis states of so many qubits. -/
def numStates (numQubits : Nat) : Nat :=
  Nat.pow 2 numQubits

/-- The most qubits over which a matrix can be stored.  Over more, its entries, of sixteen bytes
each, would go beyond the memory that can be addressed. -/
def maxMatrixQubits : Nat :=
  29

/-- A matrix: its size, and its entries by row and column.  Entries outside the size have no
meaning. -/
structure Matrix (A : Type) where
  /-- The number of rows. -/
  rows : Nat
  /-- The number of columns. -/
  cols : Nat
  /-- The entry in a row and a column. -/
  entry : Nat → Nat → A

namespace Matrix

variable {A : Type}

/-- The square matrix of a list of rows. -/
def ofRows [Inhabited A] (rows : List (List A)) : Matrix A where
  rows := rows.length
  cols := rows.length
  entry r c := (rows.getD r []).getD c default

/-- The entries row by row. -/
def toList (m : Matrix A) : List A :=
  (List.range m.rows).flatMap fun r => (List.range m.cols).map (m.entry r)

variable {S : Type} [Scalar S]

/-- The square matrix with ones on the diagonal. -/
def identity (size : Nat) : Matrix (Complex S) where
  rows := size
  cols := size
  entry r c := if r = c then .one else .zero

/-- The identity over a number of qubits, if it can be stored. -/
def identityOver? (numQubits : Nat) : Option (Matrix (Complex S)) :=
  if numQubits ≤ maxMatrixQubits then some (identity (numStates numQubits)) else none

/-- A square matrix repeated along the diagonal. -/
def repeatBlock (m : Matrix (Complex S)) (count : Nat) : Matrix (Complex S) where
  rows := m.rows * count
  cols := m.cols * count
  entry r c :=
    if r / m.rows = c / m.cols then m.entry (r % m.rows) (c % m.cols) else .zero

end Matrix

end QuantumCircuit
