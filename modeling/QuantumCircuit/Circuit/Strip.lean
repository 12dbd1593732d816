import QuantumCircuit.Circuit.Qubits

/-!
# Removing idle qubits

`stripIdle` removes the qubits that no operation touches, from the highest physical index down.
Unless it is forced to, it keeps a qubit that the output permutation moves, or whose logical qubit
is the output of another.  On request the remaining indices are closed up after each removal.
-/

namespace QuantumCircuit.Circuit

variable {S : Type}

/-- An index after a lower or equal one has been removed. -/
def closeGap (removed i : Nat) : Nat :=
  if removed < i then i - 1 else i

/-- A layout after a physical and a logical index have been removed. -/
def closeLayout (logical physical : Nat) (layout : Layout) : Layout :=
  SortedMap.ofList <| layout.entries.map fun e => (closeGap physical e.1, closeGap logical e.2)

/-- Registers after a physical index has been removed; halves that touch now are joined. -/
def closeRegisters (physical : Nat) (regs : Registers) : Registers :=
  Registers.consolidate <| regs.mapValues fun r =>
    if physical < r.start then ⟨r.start - 1, r.size⟩ else r

/-- Closes up the indices above a removed qubit everywhere. -/
def closeUp (c : Circuit S) (logical physical : Nat) : Circuit S :=
  { c with
    initialLayout := closeLayout logical physical c.initialLayout
    outputPermutation := closeLayout logical physical c.outputPermutation
    ops := Operation.remapAll (closeGap physical) c.ops
    qregs := closeRegisters physical c.qregs
    ancregs := closeRegisters physical c.ancregs }

/-- Whether the output permutation has a use for an idle qubit: it puts another logical qubit on
it, or the logical qubit of this one on another. -/
def neededForOutput (c : Circuit S) (logical physical : Nat) : Bool :=
  (match c.outputPermutation.find? physical with
    | some output => output != logical
    | none => false)
  || c.outputPermutation.entries.any fun e => e.1 != physical && e.2 == logical

/-- Removes the physical qubits of a list that are idle. -/
def stripFrom (force closing : Bool) (c : Circuit S) : List Nat → Outcome S Unit
  | [] => c.done ()
  | physical :: rest =>
      match c.initialLayout.find? physical with
      | none => stripFrom force closing c rest
      | some logical =>
          if !c.isIdle physical || (!force && c.neededForOutput logical physical) then
            stripFrom force closing c rest
          else
            (c.removeQubit logical).andThen fun c _ =>
              stripFrom force closing (if closing then c.closeUp logical physical else c) rest

/-- Removes the idle qubits from the highest physical index down. -/
def stripIdle (c : Circuit S) (force closing : Bool) : Outcome S Unit :=
  stripFrom force closing c c.initialLayout.keys.reverse

end QuantumCircuit.Circuit
