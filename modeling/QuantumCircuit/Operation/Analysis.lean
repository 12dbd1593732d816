import QuantumCircuit.Counters
import QuantumCircuit.Operation.Qubits

/-!
# Counting, depth and mid-circuit effects

These functions look through blocks at the operations inside.

* `individualCount` and `singleQubitCount` count operations and gates on one qubit.
* `addDepth` updates a depth for each qubit: an operation ends one layer after the deepest of its
  qubits.  Barriers add nothing.
* `measuredAfter?` follows which qubits have been measured, and fails at the first operation that
  makes a circuit dynamic: a condition, a reset, or a gate on a measured qubit.
-/

namespace QuantumCircuit.Operation

variable {S : Type}

mutual

/-- The number of operations, with each block counted as the operations in it. -/
def individualCount : Operation S → Nat
  | .standard _ => 1
  | .symbolic _ => 1
  | .nonUnitary _ => 1
  | .conditioned _ _ => 1
  | .compound ops => individualCountAll ops
termination_by structural op => op

/-- The number of operations in a list, with each block counted as the operations in it. -/
def individualCountAll : List (Operation S) → Nat
  | [] => 0
  | op :: ops => op.individualCount + individualCountAll ops
termination_by structural ops => ops

end

/-- One for a gate that is no barrier and touches one qubit. -/
def singleQubitGate (op : Operation S) : Nat :=
  if op.kind ≠ .barrier ∧ op.usedQubits.size = 1 then 1 else 0

mutual

/-- The number of gates on one qubit, also in blocks. -/
def singleQubitCount : Operation S → Nat
  | .standard g => singleQubitGate (.standard g)
  | .symbolic g => singleQubitGate (.symbolic g)
  | .nonUnitary _ => 0
  | .conditioned _ _ => 0
  | .compound ops => singleQubitCountAll ops
termination_by structural op => op

/-- The number of gates on one qubit in a list. -/
def singleQubitCountAll : List (Operation S) → Nat
  | [] => 0
  | op :: ops => op.singleQubitCount + singleQubitCountAll ops
termination_by structural ops => ops

end

/-- Puts the operations of one layer on top of the depths of their qubits.  Qubits without a depth
are passed over. -/
def addLayer (qubits : List Nat) (depths : Counters) : Counters :=
  let layer := match (qubits.filterMap depths.get?).max? with
    | some d => d + 1
    | none => 1
  qubits.foldl (fun ds q => ds.set q layer) depths

/-- Adds an operation that is no block to the depths of its qubits. -/
def addOwnDepth (op : Operation S) (depths : Counters) : Counters :=
  if op.kind = .barrier then depths else addLayer op.usedQubits.keys depths

mutual

/-- Adds an operation to the depths of its qubits. -/
def addDepth (depths : Counters) : Operation S → Counters
  | .standard g => addOwnDepth (.standard g) depths
  | .symbolic g => addOwnDepth (.symbolic g) depths
  | .nonUnitary e => addOwnDepth (.nonUnitary e : Operation S) depths
  | .conditioned op c => addOwnDepth (.conditioned op c) depths
  | .compound ops => addDepthAll depths ops
termination_by structural op => op

/-- Adds a list of operations, one after the other, to the depths of their qubits. -/
def addDepthAll (depths : Counters) : List (Operation S) → Counters
  | [] => depths
  | op :: ops => addDepthAll (op.addDepth depths) ops
termination_by structural ops => ops

end

/-- The measured qubits after a gate, unless it acts on one of them. -/
def measuredAfterGate? (measured : List Nat) (op : Operation S) : Option (List Nat) :=
  if op.kind ≠ .barrier ∧ op.usedQubits.keys.any measured.contains then none else some measured

mutual

/-- The measured qubits after an operation, unless it makes the circuit dynamic. -/
def measuredAfter? (measured : List Nat) : Operation S → Option (List Nat)
  | .standard g => measuredAfterGate? measured (.standard g)
  | .symbolic g => measuredAfterGate? measured (.symbolic g)
  | .nonUnitary e => if e.kind = .reset then none else some (measured ++ e.targets)
  | .conditioned _ _ => none
  | .compound ops => measuredAfterAll? measured ops
termination_by structural op => op

/-- The measured qubits after a list of operations, unless one makes the circuit dynamic. -/
def measuredAfterAll? (measured : List Nat) : List (Operation S) → Option (List Nat)
  | [] => some measured
  | op :: ops =>
      match op.measuredAfter? measured with
      | some next => measuredAfterAll? next ops
      | none => none
termination_by structural ops => ops

end

end QuantumCircuit.Operation
