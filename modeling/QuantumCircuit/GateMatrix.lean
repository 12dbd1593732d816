import QuantumCircuit.Matrix
import QuantumCircuit.OpKind

/-!
# The matrices of gates

`gateMatrix?` gives the matrix of a gate on its targets.  The first target is the more significant
bit of the row and column numbers.  Angles that are not given are zero.
-/

namespace QuantumCircuit

open TrigScalar

variable {S : Type} [TrigScalar S]

namespace GateMatrix

/-- The angle at a position. -/
def angle (params : List S) (i : Nat) : S :=
  params.getD i Scalar.zero

/-- The square root of one half. -/
def rootHalf : Complex S :=
  .ofReal sqrtHalf

/-- The number of radius one and a given angle. -/
def phase (angle : S) : Complex S :=
  .ofPolar Scalar.one angle

/-- The general gate on one qubit. -/
def general (theta phi lambda : S) : List (List (Complex S)) :=
  let c := cos (half theta)
  let s := sin (half theta)
  [[.ofReal c, -Complex.ofPolar s lambda],
    [.ofPolar s phi, .ofPolar c (phi + lambda)]]

/-- A diagonal matrix on one qubit. -/
def diagonal (a b : Complex S) : List (List (Complex S)) :=
  [[a, .zero], [.zero, b]]

/-- A matrix on one qubit with equal diagonal entries and equal others. -/
def symmetric (a b : Complex S) : List (List (Complex S)) :=
  [[a, b], [b, a]]

/-- A matrix on two qubits with entries on the diagonal and on the other diagonal. -/
def cross (d outer inner : Complex S) : List (List (Complex S)) :=
  [[d, .zero, .zero, outer],
    [.zero, d, inner, .zero],
    [.zero, inner, d, .zero],
    [outer, .zero, .zero, d]]

/-- A matrix on two qubits that sends each basis state to the one listed at its place. -/
def permutation (images : List Nat) : List (List (Complex S)) :=
  (List.range images.length).map fun r =>
    images.map fun image => if image = r then .one else .zero

/-- The exchange of two qubits with a phase. -/
def phasedSwap (z : Complex S) : List (List (Complex S)) :=
  [[.one, .zero, .zero, .zero],
    [.zero, .zero, z, .zero],
    [.zero, z, .zero, .zero],
    [.zero, .zero, .zero, .one]]

/-- The echoed cross-resonance gate. -/
def echoedCrossResonance : List (List (Complex S)) :=
  let a : Complex S := .one * rootHalf
  let b : Complex S := .i * rootHalf
  [[.zero, a, .zero, b],
    [a, .zero, -b, .zero],
    [.zero, b, .zero, a],
    [-b, .zero, a, .zero]]

/-- The two entries off the diagonal of an interaction of two qubits. -/
def interactionEntries (s beta : S) : Complex S × Complex S :=
  (Complex.ofImag (-s) * phase (-beta), Complex.ofImag (-s) * phase beta)

/-- The rows of the matrix of a gate; none for what is no gate. -/
def rows? (kind : OpKind) (params : List S) : Option (List (List (Complex S))) :=
  let theta := angle params 0
  let beta := angle params 1
  let c := cos (half theta)
  let s := sin (half theta)
  let h : Complex S := rootHalf
  match kind with
  | .i => some <| diagonal .one .one
  | .h => some [[h, h], [h, -h]]
  | .x => some <| symmetric .zero .one
  | .y => some [[.zero, -.i], [.i, .zero]]
  | .z => some <| diagonal .one (-.one)
  | .s => some <| diagonal .one .i
  | .sdg => some <| diagonal .one (-.i)
  | .t => some <| diagonal .one (phase (half (half Scalar.pi)))
  | .tdg => some <| diagonal .one (phase (half (half (-Scalar.pi))))
  | .v => some <| symmetric h (-.i * h)
  | .vdg => some <| symmetric h (.i * h)
  | .sx =>
      let a := half (Scalar.one : S)
      some <| symmetric ⟨a, a⟩ ⟨a, -a⟩
  | .sxdg =>
      let a := half (Scalar.one : S)
      some <| symmetric ⟨a, -a⟩ ⟨a, a⟩
  | .u => some <| general theta beta (angle params 2)
  | .u2 => some <| general (half Scalar.pi) theta beta
  | .p => some <| diagonal .one (phase theta)
  | .rx => some <| symmetric (.ofReal c) (.ofImag (-s))
  | .ry => some [[.ofReal c, .ofReal (-s)], [.ofReal s, .ofReal c]]
  | .rz => some <| diagonal (phase (half (-theta))) (phase (half theta))
  | .swap => some <| permutation [0, 2, 1, 3]
  | .iswap => some <| phasedSwap .i
  | .iswapdg => some <| phasedSwap (-.i)
  | .peres => some <| permutation [2, 3, 1, 0]
  | .peresdg => some <| permutation [3, 2, 0, 1]
  | .dcx => some <| permutation [0, 3, 1, 2]
  | .ecr => some echoedCrossResonance
  | .rxx => some <| cross (.ofReal c) (.ofImag (-s)) (.ofImag (-s))
  | .ryy => some <| cross (.ofReal c) (.ofImag s) (-.ofImag s)
  | .rzz =>
      let a := phase (half (-theta))
      let b := phase (half theta)
      some [[a, .zero, .zero, .zero],
        [.zero, b, .zero, .zero],
        [.zero, .zero, b, .zero],
        [.zero, .zero, .zero, a]]
  | .rzx =>
      let d : Complex S := .ofReal c
      let o : Complex S := .ofImag s
      some [[d, -o, .zero, .zero],
        [-o, d, .zero, .zero],
        [.zero, .zero, d, o],
        [.zero, .zero, o, d]]
  | .xxMinusYY =>
      let d : Complex S := .ofReal c
      let (upper, lower) := interactionEntries s beta
      some [[d, .zero, .zero, upper],
        [.zero, .one, .zero, .zero],
        [.zero, .zero, .one, .zero],
        [lower, .zero, .zero, d]]
  | .xxPlusYY =>
      let d : Complex S := .ofReal c
      let (upper, lower) := interactionEntries s beta
      some [[.one, .zero, .zero, .zero],
        [.zero, d, upper, .zero],
        [.zero, lower, d, .zero],
        [.zero, .zero, .zero, .one]]
  | .barrier | .compound | .measure | .reset | .classicControlled => none

end GateMatrix

/-- The matrix of a gate on its targets; none for what is no gate. -/
def gateMatrix? (kind : OpKind) (params : List S) : Option (Matrix (Complex S)) :=
  (GateMatrix.rows? kind params).map Matrix.ofRows

end QuantumCircuit
