import QuantumCircuit.Error
import QuantumCircuit.Matrix
import QuantumCircuit.Operation.Basic

/-!
# Backends that compute the matrices of gates

The export of tensors does not compute matrices itself.  It hands each gate, on qubits numbered
from zero, to a backend and reads the matrix off the diagram that the backend builds.  A backend
has a state, which it may change with each gate.

Besides backends that compute there is `Backend.recorder`, which keeps what it is handed and
answers identities, and which can be made to refuse.
-/

namespace QuantumCircuit

/-- The causes for which an export fails. -/
inductive TensorError where
  /-- An operation without a tensor. -/
  | unsupportedOperation (name : String)
  /-- A gate that the backend refuses, in its words. -/
  | backend (reason : String)
  /-- An error of the circuit. -/
  | circuit (error : CircuitError)
deriving DecidableEq, Repr

/-- The tag by which programs tell causes apart.  That of an error of the circuit is marked as
such. -/
def TensorError.tag : TensorError → String
  | unsupportedOperation _ => "UnsupportedOperation"
  | backend _ => "Backend"
  | circuit error => "Ir/" ++ error.tag

/-- The text of a cause. -/
def TensorError.message : TensorError → String
  | unsupportedOperation name =>
      "Tensor export supports standard gates, compounds, barriers and measurements, got '" ++ name
        ++ "'"
  | backend reason => "Decision diagram backend error: " ++ reason
  | circuit error => "Circuit IR error: " ++ error.message

/-- An answer of a backend or an export, or why there is none. -/
abbrev TensorResult (α : Type) := Except (Failure TensorError) α

/-- A value, or a fault if there is none. -/
def orFault {α : Type} : Option α → TensorResult α
  | some a => .ok a
  | none => .error .fault

/-- An operator that can be read as a matrix over any number of qubits.  Qubit zero is the least
significant bit of the row and column numbers. -/
structure Diagram (S : Type) where
  /-- The matrix over a number of qubits, if it can be stored. -/
  matrix? : Nat → Option (Matrix (Complex S))

/-- What builds the diagrams of gates. -/
structure Backend (S σ : Type) where
  /-- Builds the diagram of an operation. -/
  build : σ → Operation S → σ × TensorResult (Diagram S)

/-- A backend that keeps the operations it is handed and answers identities.  With a limit it
refuses once so many operations are kept. -/
def Backend.recorder {S : Type} [Scalar S] (limit : Option Nat) :
    Backend S (List (Operation S)) where
  build kept op :=
    if limit = some kept.length then (kept, .error (.refused (.backend ("refused " ++ op.name))))
    else (kept ++ [op], .ok ⟨Matrix.identityOver?⟩)

end QuantumCircuit
