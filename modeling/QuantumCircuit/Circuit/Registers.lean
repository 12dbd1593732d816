import QuantumCircuit.Circuit.Basic

/-!
# The registers of a circuit

New qubits and bits are added at the end, register by register.  A quantum or ancillary register
can grow as long as it is the last one.  Quantum registers come before all ancillary ones.
-/

namespace QuantumCircuit.Circuit

variable {S : Type}

/-- Whether a register of this name is there and does not end at the last qubit. -/
def blocked (regs : Registers) (name : String) (total : Nat) : Bool :=
  match regs.find? name with
  | some r => r.stop != total
  | none => false

/-- Adds qubits under a register name. -/
def addQubitRegister (c : Circuit S) (n : Nat) (name : String) : Outcome S Unit :=
  if 0 < c.numAncillae then c.refuse (.ancillaePresent name)
  else if blocked c.qregs name c.numTotalQubits then c.refuse (.duplicateRegister name)
  else if n = 0 then c.done ()
  else if c.hasRoomFor n then (c.insertQubits n name).done ()
  else c.fault

/-- Adds classical bits under a new register name. -/
def addClassicalRegister (c : Circuit S) (n : Nat) (name : String) : Outcome S Unit :=
  if c.cregs.contains name then c.refuse (.duplicateRegister name)
  else if n = 0 then c.done ()
  else if (index? n).isSome && (index? c.numClbits).isSome then (c.insertClbits n name).done ()
  else c.fault

/-- Adds ancillary qubits under a register name. -/
def addAncillaryRegister (c : Circuit S) (n : Nat) (name : String) : Outcome S Unit :=
  if blocked c.ancregs name c.numTotalQubits then c.refuse (.duplicateRegister name)
  else if n = 0 then c.done ()
  else if c.hasRoomFor n then (c.insertAncillae n name).done ()
  else c.fault

/-- Puts one register over all qubits in place of the quantum and ancillary registers.  Ancillary
qubits count as others from then on.  If their number is not an index, this breaks off before the
register is there. -/
def unifyRegisters (c : Circuit S) (name : String) : Circuit S :=
  let total := c.numTotalQubits
  { c with
    ancregs := .empty
    qregs :=
      if 0 < total && (index? total).isSome then SortedMap.empty.insert name ⟨0, total⟩
      else .empty
    numQubits := total
    numAncillae := 0 }

/-! ## Queries -/

/-- The register name and label of each physical qubit; where registers overlap, the ancillary one
counts. -/
def qubitNames (c : Circuit S) : SortedMap Nat (String × String) :=
  (Registers.names c.qregs).insertAll (Registers.names c.ancregs).entries

/-- The register name and label of each classical bit. -/
def clbitNames (c : Circuit S) : SortedMap Nat (String × String) :=
  Registers.names c.cregs

/-- The register of a physical qubit and its position there; quantum registers come first. -/
def locateQubit (c : Circuit S) (physical : Nat) : Except CircuitError (String × Nat) :=
  match (Registers.locate? c.qregs physical).or (Registers.locate? c.ancregs physical) with
  | some found => .ok found
  | none => .error (.physicalQubitNotInRegister physical)

/-- The register of a classical bit and its position there. -/
def locateClbit (c : Circuit S) (bit : Nat) : Except CircuitError (String × Nat) :=
  match Registers.locate? c.cregs bit with
  | some found => .ok found
  | none => .error (.clbitOutOfRange bit c.numClbits none)

end QuantumCircuit.Circuit
