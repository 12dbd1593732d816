import QuantumCircuit.Circuit.Basic

/-!
# Physical and logical qubits

Queries on the layouts and flags of a circuit.  If several physical qubits hold one logical qubit,
the first of them counts.
-/

namespace QuantumCircuit.Circuit

variable {S : Type}

/-- The first physical qubit that holds a logical one at the start. -/
def physicalOf? (c : Circuit S) (logical : Nat) : Option Nat :=
  (c.initialLayout.entries.find? fun e => e.2 == logical).map (·.1)

/-- The first physical qubit that holds a logical one at the start, or the error that there is
none. -/
def physicalOf (c : Circuit S) (logical : Nat) : Except CircuitError Nat :=
  match c.physicalOf? logical with
  | some p => .ok p
  | none => .error (.logicalQubitNotFound logical)

/-- Whether an ancillary register covers a physical qubit. -/
def physicalIsAncillary (c : Circuit S) (physical : Nat) : Bool :=
  Registers.covers c.ancregs physical

/-- Whether a logical qubit is marked ancillary. -/
def logicalIsAncillary (c : Circuit S) (logical : Nat) : Bool :=
  c.ancillary.getD logical false

/-- Whether a logical qubit is marked garbage. -/
def logicalIsGarbage (c : Circuit S) (logical : Nat) : Bool :=
  c.garbage.getD logical false

/-- Whether no operation touches a physical qubit. -/
def isIdle (c : Circuit S) (physical : Nat) : Bool :=
  !Operation.anyActsOn physical c.ops

/-- The greatest logical qubit of the initial layout. -/
def highestLogical? (c : Circuit S) : Option Nat :=
  c.initialLayout.values.max?

/-- The greatest physical qubit of the initial layout. -/
def highestPhysical? (c : Circuit S) : Option Nat :=
  c.initialLayout.lastKey?

/-- The number of logical qubits that are neither ancillary nor garbage. -/
def numMeasuredQubits (c : Circuit S) : Nat :=
  let marks (flags : List Bool) : List Bool := resize flags c.numTotalQubits false
  ((marks c.ancillary).zip (marks c.garbage)).countP fun mark => !mark.1 && !mark.2

/-- The number of marks for garbage. -/
def numGarbageQubits (c : Circuit S) : Nat :=
  c.garbage.count true

end QuantumCircuit.Circuit
