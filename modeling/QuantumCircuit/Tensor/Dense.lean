import QuantumCircuit.GateMatrix
import QuantumCircuit.Operation.Qubits
import QuantumCircuit.Tensor.Backend

/-!
# Dense matrices of controlled gates

`denseOperator` builds the matrix of a gate with its controls over the qubits up to the highest
one that it touches.  A column whose state violates a control is that of the identity.  In the
others the bits of the targets, the first one most significant, select a column of the gate's own
matrix, and its entries go to the rows in which these bits are replaced.
-/

namespace QuantumCircuit

/-- A matrix over a number of qubits. -/
structure DenseOperator (S : Type) where
  /-- The number of qubits. -/
  numQubits : Nat
  /-- The matrix over these qubits. -/
  own : Matrix (Complex S)

namespace DenseOperator

variable {S : Type}

/-- The matrix over a number of qubits, if it can be stored: with the identity on more significant
ones, if there are more than the operator has, and the operator's own matrix otherwise. -/
def matrix? [Scalar S] (d : DenseOperator S) (numQubits : Nat) : Option (Matrix (Complex S)) :=
  if numQubits ≤ d.numQubits then some d.own
  else if numQubits ≤ maxMatrixQubits then
    some (d.own.repeatBlock (numStates (numQubits - d.numQubits)))
  else none

/-! ## Bits of basis states -/

/-- Whether a basis state satisfies all controls. -/
def active (controls : List Control) (state : Nat) : Bool :=
  controls.all fun c => state.testBit c.qubit == decide (c.polarity = .positive)

/-- The number whose bits are those of the targets, the first one most significant. -/
def gather (targets : List Nat) (state : Nat) : Nat :=
  targets.foldl (fun acc q => 2 * acc + (state.testBit q).toNat) 0

/-- A basis state without the bit of a qubit. -/
def clearBit (state q : Nat) : Nat :=
  state ^^^ (state &&& 1 <<< q)

/-- A basis state without the bits of the targets. -/
def clear (targets : List Nat) (state : Nat) : Nat :=
  targets.foldl clearBit state

/-- A basis state with the bits of a number put on the targets, the first one most significant. -/
def scatter (targets : List Nat) (bits state : Nat) : Nat :=
  match targets with
  | [] => state
  | q :: rest =>
      scatter rest bits (if bits.testBit rest.length then state ||| 1 <<< q else state)

/-! ## Operators -/

/-- The entry of a gate in a row and a column.  If several columns of bits end in one row, which
happens when targets coincide, the last one counts. -/
def entry [Scalar S] (unitary : Matrix (Complex S)) (controls : List Control)
    (targets : List Nat) (row col : Nat) : Complex S :=
  if active controls col then
    let source := (List.range (numStates targets.length)).reverse.find? fun bits =>
      scatter targets bits (clear targets col) == row
    match source with
    | some bits => unitary.entry bits (gather targets col)
    | none => .zero
  else if row = col then .one
  else .zero

/-- The operator of a gate whose own matrix is given. -/
def ofGate [Scalar S] (unitary : Matrix (Complex S)) (g : Gate S) : DenseOperator S :=
  let numQubits := (Operation.standard g).width
  let size := numStates numQubits
  ⟨numQubits, size, size, entry unitary g.controls.keys g.targets⟩

/-- Whether the gate's own matrix is too small for the number of targets, which matters if there is
a basis state that satisfies the controls. -/
def overruns (unitary : Matrix (Complex S)) (g : Gate S) : Bool :=
  unitary.rows < numStates g.targets.length
    && (List.range (numStates (Operation.standard g).width)).any (active g.controls.keys)

end DenseOperator

variable {S : Type} [TrigScalar S]

/-- The matrix of a kind of gate, which is refused if there is none. -/
def gateMatrix (kind : OpKind) (params : List S) : TensorResult (Matrix (Complex S)) :=
  match gateMatrix? kind params with
  | some unitary => .ok unitary
  | none => .error (.refused (.unsupportedOperation kind.name))

/-- The operator of a gate whose own matrix is given.  It is a fault if the operator's matrix cannot
be stored, or if the gate's own matrix is too small. -/
def storedOperator (unitary : Matrix (Complex S)) (g : Gate S) : TensorResult (DenseOperator S) :=
  if maxMatrixQubits < (Operation.standard g).width then .error .fault
  else if DenseOperator.overruns unitary g then .error .fault
  else .ok (.ofGate unitary g)

/-- The operator of a gate whose parameters are numbers. -/
def denseOperator : Operation S → TensorResult (DenseOperator S)
  | .standard g => (gateMatrix g.kind g.params).bind fun unitary => storedOperator unitary g
  | op => .error (.refused (.unsupportedOperation op.name))

/-- The backend that builds dense matrices. -/
def Backend.dense : Backend S Unit where
  build _ op := ((), (denseOperator op).map fun d => ⟨d.matrix?⟩)

end QuantumCircuit
