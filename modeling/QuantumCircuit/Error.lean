import QuantumCircuit.OpKind
import QuantumCircuit.Qubit

/-!
# Why a step on a circuit fails

A step is refused for a stated cause, a `CircuitError`, or it breaks off with a fault: an index
that is too large for its use, a position outside a list, a counter below zero.  A cause has a
tag and a text; a fault has neither.
-/

namespace QuantumCircuit

/-- The causes for which registers and circuits refuse a step. -/
inductive CircuitError where
  /-- A qubit at or beyond the number of qubits, maybe as an operand of a named gate. -/
  | qubitOutOfRange (qubit numQubits : Nat) (gate : Option String)
  /-- A classical bit at or beyond the number of bits, maybe as an operand of a named gate. -/
  | clbitOutOfRange (clbit numClbits : Nat) (gate : Option String)
  /-- A range of classical bits that ends beyond the last one. -/
  | classicalRegisterOutOfRange (start size numClbits : Nat)
  /-- A logical qubit that no physical qubit holds. -/
  | logicalQubitNotFound (logical : Nat)
  /-- A physical qubit that no register covers. -/
  | physicalQubitNotInRegister (physical : Nat)
  /-- A physical qubit that is a key of a layout already. -/
  | physicalQubitOccupied (physical : Nat)
  /-- A logical index that would leave a gap. -/
  | logicalQubitTooLarge (logical numQubits : Nat)
  /-- A register name that is not in use. -/
  | registerNotFound (name : String)
  /-- A register name that is in use. -/
  | duplicateRegister (name : String)
  /-- An index that the named register does not cover. -/
  | indexOutsideRegister (name : String) (index start size : Nat)
  /-- A quantum register that would follow ancillary qubits. -/
  | ancillaePresent (name : String)
  /-- Fewer classical bits than measurements. -/
  | insufficientClassicalBits (required available : Nat)
  /-- A measurement with unequal numbers of qubits and bits. -/
  | measurementArityMismatch (qubits clbits : Nat)
  /-- A gate with a wrong number of targets. -/
  | targetCountMismatch (gate : String) (expected got : Nat)
  /-- A gate with a wrong number of parameters. -/
  | parameterCountMismatch (gate : String) (expected got : Nat)
  /-- An operation in the place of a gate. -/
  | notAGate (name : String)
  /-- A name that no operation has. -/
  | unknownOperation (name : String)
  /-- A range whose lower end is above its upper end. -/
  | invalidRange (lo hi : Nat)
deriving DecidableEq, Repr

namespace CircuitError

/-- The tag by which programs tell causes apart. -/
def tag : CircuitError → String
  | qubitOutOfRange _ _ _ => "QubitOutOfRange"
  | clbitOutOfRange _ _ _ => "ClbitOutOfRange"
  | classicalRegisterOutOfRange _ _ _ => "ClassicalRegisterOutOfRange"
  | logicalQubitNotFound _ => "LogicalQubitNotFound"
  | physicalQubitNotInRegister _ => "PhysicalQubitNotInRegister"
  | physicalQubitOccupied _ => "PhysicalQubitOccupied"
  | logicalQubitTooLarge _ _ => "LogicalQubitTooLarge"
  | registerNotFound _ => "RegisterNotFound"
  | duplicateRegister _ => "DuplicateRegister"
  | indexOutsideRegister _ _ _ _ => "IndexOutsideRegister"
  | ancillaePresent _ => "AncillaePresent"
  | insufficientClassicalBits _ _ => "InsufficientClassicalBits"
  | measurementArityMismatch _ _ => "MeasurementArityMismatch"
  | targetCountMismatch _ _ _ => "TargetCountMismatch"
  | parameterCountMismatch _ _ _ => "ParameterCountMismatch"
  | notAGate _ => "NotAGate"
  | unknownOperation _ => "UnknownOperation"
  | invalidRange _ _ => "InvalidRange"

/-- The remark on the gate in which an operand occurs. -/
def gateRemark : Option String → String
  | some name => " (gate: " ++ name ++ ")"
  | none => ""

/-- A half-open range as errors show it. -/
def rangeText (start size : Nat) : String :=
  "[" ++ toString start ++ ", " ++ toString start ++ "+" ++ toString size ++ ")"

/-- The text of a cause. -/
def message : CircuitError → String
  | qubitOutOfRange q n gate =>
      "Qubit " ++ qubitText q ++ " out of range (" ++ toString n ++ " qubits)" ++ gateRemark gate
  | clbitOutOfRange b n gate =>
      "Classical bit " ++ clbitText b ++ " out of range (" ++ toString n ++ " bits)"
        ++ gateRemark gate
  | classicalRegisterOutOfRange start size n =>
      "Classical register " ++ rangeText start size ++ " exceeds " ++ toString n
        ++ " classical bits"
  | logicalQubitNotFound l => "Logical qubit " ++ qubitText l ++ " not found in initial layout"
  | physicalQubitNotInRegister p =>
      "Physical qubit " ++ qubitText p ++ " is not part of any register"
  | physicalQubitOccupied p => "Physical qubit " ++ qubitText p ++ " is already assigned"
  | logicalQubitTooLarge l n =>
      "Cannot add logical qubit " ++ qubitText l ++ ": only " ++ toString n ++ " qubits present"
  | registerNotFound name => "Register '" ++ name ++ "' not found"
  | duplicateRegister name => "Register '" ++ name ++ "' already exists"
  | indexOutsideRegister name index start size =>
      "Index " ++ toString index ++ " is not part of register '" ++ name ++ "' "
        ++ rangeText start size
  | ancillaePresent name =>
      "Cannot add quantum register '" ++ name ++ "' after ancillary qubits were added"
  | insufficientClassicalBits required available =>
      "Not enough classical bits: " ++ toString required ++ " required, " ++ toString available
        ++ " available"
  | measurementArityMismatch qubits clbits =>
      "Measurement of " ++ toString qubits ++ " qubits into " ++ toString clbits
        ++ " classical bits"
  | targetCountMismatch gate expected got =>
      "Gate '" ++ gate ++ "' requires " ++ toString expected ++ " targets, got " ++ toString got
  | parameterCountMismatch gate expected got =>
      "Gate '" ++ gate ++ "' requires " ++ toString expected ++ " parameters, got "
        ++ toString got
  | notAGate name => "Operation '" ++ name ++ "' is not a unitary gate"
  | unknownOperation name => "Unknown operation '" ++ name ++ "'"
  | invalidRange lo hi => "Invalid qubit range [" ++ qubitText lo ++ ", " ++ qubitText hi ++ "]"

end CircuitError

/-- How a step that does not finish ends. -/
inductive Failure (ε : Type) where
  /-- Refused, with a cause. -/
  | refused (cause : ε)
  /-- Broken off by a fault. -/
  | fault
deriving DecidableEq, Repr

/-- The kind of a name, or the error that there is none. -/
def OpKind.ofName (text : String) : Except CircuitError OpKind :=
  match ofName? text with
  | some k => .ok k
  | none => .error (.unknownOperation text)

end QuantumCircuit
