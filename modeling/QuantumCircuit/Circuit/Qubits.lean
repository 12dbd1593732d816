import QuantumCircuit.Circuit.Layout

/-!
# Adding, removing and marking single qubits

These steps keep registers, layouts, marks and counters together.  Indices of other qubits stay as
they are, so after a removal there can be gaps.
-/

namespace QuantumCircuit.Circuit

variable {S : Type}

/-! ## Removal -/

/-- Takes a qubit out of the layouts and its logical index out of the marks; answers its physical
index and its entry in the output permutation. -/
def forgetQubit (c : Circuit S) (logical physical : Nat) : Outcome S (Nat × Option Nat) :=
  let output := c.outputPermutation.find? physical
  let rest : Circuit S :=
    { c with
      initialLayout := c.initialLayout.erase physical
      outputPermutation := c.outputPermutation.erase physical
      ancillary := c.ancillary.eraseIdx logical
      garbage := c.garbage.eraseIdx logical }
  rest.done (physical, output)

/-- Counts one ancillary qubit less. -/
def dropAncilla (c : Circuit S) : Outcome S Unit :=
  if c.numAncillae = 0 then c.fault else { c with numAncillae := c.numAncillae - 1 }.done ()

/-- Counts one qubit less among those that are not ancillary. -/
def dropQubit (c : Circuit S) : Outcome S Unit :=
  if c.numQubits = 0 then c.fault else { c with numQubits := c.numQubits - 1 }.done ()

/-- Takes a physical qubit out of its ancillary register and the count. -/
def releaseAncilla (c : Circuit S) (physical : Nat) : Outcome S Unit :=
  match Registers.locate? c.ancregs physical with
  | none => c.refuse (.physicalQubitNotInRegister physical)
  | some (name, _) =>
      match Registers.remove c.ancregs name physical with
      | .error e => c.refuse e
      | .ok ancregs => { c with ancregs }.dropAncilla

/-- Takes a physical qubit out of its quantum register and the count to which its logical qubit
belongs. -/
def releaseQubit (c : Circuit S) (logical physical : Nat) : Outcome S Unit :=
  match Registers.locate? c.qregs physical with
  | none => c.refuse (.physicalQubitNotInRegister physical)
  | some (name, _) =>
      match Registers.remove c.qregs name physical with
      | .error e => c.refuse e
      | .ok qregs =>
          if c.logicalIsAncillary logical then { c with qregs }.dropAncilla
          else { c with qregs }.dropQubit

/-- Removes a logical qubit; answers the physical qubit that held it and the output of that. -/
def removeQubit (c : Circuit S) (logical : Nat) : Outcome S (Nat × Option Nat) :=
  match c.physicalOf? logical with
  | none => c.refuse (.logicalQubitNotFound logical)
  | some physical =>
      let released :=
        if c.physicalIsAncillary physical then c.releaseAncilla physical
        else c.releaseQubit logical physical
      released.andThen fun c _ => c.forgetQubit logical physical

/-! ## Addition -/

/-- Whether a physical qubit is a key of one of the layouts. -/
def occupied (c : Circuit S) (physical : Nat) : Bool :=
  c.initialLayout.contains physical || c.outputPermutation.contains physical

/-- A layout with the entry of a qubit, if it has one. -/
def insertOutput (layout : Layout) (physical : Nat) (output : Option Nat) : Layout :=
  match output with
  | some o => layout.insert physical o
  | none => layout

/-- Adds a logical qubit on a physical one. -/
def addQubit (c : Circuit S) (logical physical : Nat) (output : Option Nat) : Outcome S Unit :=
  if c.occupied physical then c.refuse (.physicalQubitOccupied physical)
  else if c.numQubits < logical then c.refuse (.logicalQubitTooLarge logical c.numQubits)
  else if c.ancillary.length < logical ∨ c.garbage.length < logical then c.fault
  else
    { c with
      qregs := Registers.add c.qregs physical c.qregName
      numQubits := c.numQubits + 1
      initialLayout := c.initialLayout.insert physical logical
      outputPermutation := insertOutput c.outputPermutation physical output
      ancillary := c.ancillary.insertIdx logical false
      garbage := c.garbage.insertIdx logical false }.done ()

/-- Adds an ancillary qubit on a physical one, with the number of qubits as its logical index.
Without an output it is garbage. -/
def addAncillaryQubit (c : Circuit S) (physical : Nat) (output : Option Nat) : Outcome S Unit :=
  if c.occupied physical then c.refuse (.physicalQubitOccupied physical)
  else
    let logical := c.numTotalQubits
    if maxIndex < logical then c.fault
    else
      { c with
        ancregs := Registers.add c.ancregs physical c.ancregName
        numAncillae := c.numAncillae + 1
        ancillary := resize c.ancillary logical false ++ [true]
        garbage := resize c.garbage logical false ++ [output.isNone]
        initialLayout := c.initialLayout.insert physical logical
        outputPermutation := insertOutput c.outputPermutation physical output }.done ()

/-! ## Marks -/

/-- Why a range of logical qubits cannot be marked, if it cannot. -/
def rangeError? (c : Circuit S) (lo hi : Nat) : Option CircuitError :=
  if hi < lo then some (.invalidRange lo hi)
  else if c.ancillary.length ≤ hi then some (.qubitOutOfRange hi c.ancillary.length none)
  else none

/-- The logical qubits of a range that are not ancillary yet, each with its physical qubit. -/
def ancillaMoves (c : Circuit S) (lo hi : Nat) : Except CircuitError (List (Nat × Nat)) :=
  ((List.range' lo (hi + 1 - lo)).filter fun l => !c.logicalIsAncillary l).mapM fun l =>
    (c.physicalOf l).map fun p => (l, p)

/-- Moves a physical qubit from its quantum register to the ancillary ones, if it is in one. -/
def moveToAncillae (c : Circuit S) (physical : Nat) : Outcome S Unit :=
  match Registers.locate? c.qregs physical with
  | none => c.done ()
  | some (name, _) =>
      match Registers.remove c.qregs name physical with
      | .error e => c.refuse e
      | .ok qregs =>
          { c with qregs, ancregs := Registers.add c.ancregs physical c.ancregName }.done ()

/-- Marks one logical qubit ancillary, and counts it so. -/
def makeAncilla (c : Circuit S) (logical physical : Nat) : Outcome S Unit :=
  (c.moveToAncillae physical).andThen fun c _ =>
    if c.numQubits = 0 then c.fault
    else
      { c with
        ancillary := c.ancillary.set logical true
        numQubits := c.numQubits - 1
        numAncillae := c.numAncillae + 1 }.done ()

/-- Marks logical qubits ancillary one after the other. -/
def makeAncillae (c : Circuit S) : List (Nat × Nat) → Outcome S Unit
  | [] => c.done ()
  | (logical, physical) :: rest =>
      (c.makeAncilla logical physical).andThen fun c _ => c.makeAncillae rest

/-- Marks the logical qubits from `lo` to `hi` ancillary and moves them to the ancillary registers,
the last one first, because registers shrink from their upper end. -/
def markAncillary (c : Circuit S) (lo hi : Nat) : Outcome S Unit :=
  match c.rangeError? lo hi with
  | some e => c.refuse e
  | none =>
      match c.ancillaMoves lo hi with
      | .error e => c.refuse e
      | .ok moves => c.makeAncillae moves.reverse

/-- Marks the logical qubits from `lo` to `hi` garbage. -/
def markGarbage (c : Circuit S) (lo hi : Nat) : Outcome S Unit :=
  match c.rangeError? lo hi with
  | some e => c.refuse e
  | none =>
      if c.garbage.length ≤ hi then c.fault
      else
        { c with
          garbage := c.garbage.take lo ++ List.replicate (hi + 1 - lo) true
            ++ c.garbage.drop (hi + 1) }.done ()

end QuantumCircuit.Circuit
