import QuantumCircuit.Circuit.Layout
import QuantumCircuit.Operation.Analysis

/-!
# Statistics

Counts of operations, the depth, and whether a circuit is dynamic.
-/

namespace QuantumCircuit

/-- A summary of a circuit. -/
structure Statistics (S : Type) where
  /-- The name. -/
  name : String
  /-- The number of qubits that are not ancillary. -/
  numQubits : Nat
  /-- The number of ancillary qubits. -/
  numAncillae : Nat
  /-- The number of classical bits. -/
  numClbits : Nat
  /-- The number of operations. -/
  numOps : Nat
  /-- The number of operations, blocks counted as the operations in them. -/
  numIndividualOps : Nat
  /-- The number of gates on one qubit. -/
  numSingleQubitOps : Nat
  /-- The depth. -/
  depth : Nat
  /-- The global phase. -/
  globalPhase : S
  /-- The number of operations of each name. -/
  opCounts : SortedMap String Nat

namespace Circuit

variable {S : Type}

/-- The number of operations, with blocks counted as the operations in them. -/
def numIndividualOps (c : Circuit S) : Nat :=
  Operation.individualCountAll c.ops

/-- The number of gates on one qubit, also in blocks. -/
def numSingleQubitOps (c : Circuit S) : Nat :=
  Operation.singleQubitCountAll c.ops

/-- The length of the longest chain of operations on any qubit. -/
def depth (c : Circuit S) : Nat :=
  let width := max ((c.ops.map Operation.width).max?.getD 0) c.numTotalQubits
  (Operation.addDepthAll (.zero width) c.ops).greatest

/-- Whether a condition, a reset, or a gate on a measured qubit occurs. -/
def isDynamic (c : Circuit S) : Bool :=
  (Operation.measuredAfterAll? [] c.ops).isNone

/-- Whether no symbolic gate occurs. -/
def isVariableFree (c : Circuit S) : Bool :=
  !Operation.anySymbolic c.ops

/-- Counts one more of a name. -/
def countName (counts : SortedMap String Nat) (name : String) : SortedMap String Nat :=
  counts.insert name ((counts.find? name).getD 0 + 1)

/-- The summary of a circuit. -/
def statistics (c : Circuit S) : Statistics S where
  name := c.name
  numQubits := c.numQubits
  numAncillae := c.numAncillae
  numClbits := c.numClbits
  numOps := c.ops.length
  numIndividualOps := c.numIndividualOps
  numSingleQubitOps := c.numSingleQubitOps
  depth := c.depth
  globalPhase := c.globalPhase
  opCounts := (c.ops.map Operation.name).foldl countName .empty

end Circuit

end QuantumCircuit
