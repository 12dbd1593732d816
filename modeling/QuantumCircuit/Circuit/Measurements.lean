import QuantumCircuit.Circuit.Gates
import QuantumCircuit.Circuit.Registers

/-!
# Measuring whole circuits

`measureAll` measures by index.  `appendMeasurements` measures each physical qubit of the output
permutation into the bit of its logical qubit.  Both put a barrier in front.
-/

namespace QuantumCircuit.Circuit

variable {S : Type} [Scalar S]

/-- The name of the register that `measureAll` adds. -/
def measRegister : String :=
  "meas"

/-- Measures qubits, each into the bit so many places after it. -/
def measureEach (c : Circuit S) (start : Nat) : List Nat → Outcome S Unit
  | [] => c.done ()
  | q :: rest =>
      (c.measure q (wrapIndex (start + q))).andThen fun c _ => c.measureEach start rest

/-- Measures as many qubits as are not ancillary, from the first index on, into the bits of a new
register or, without one, into the bits from the first on. -/
def measureAll (c : Circuit S) (addBits : Bool) : Outcome S Unit :=
  let n := c.numQubits
  let ready : Outcome S Unit :=
    if addBits then c.addClassicalRegister n measRegister
    else if c.numClbits < n then c.refuse (.insufficientClassicalBits n c.numClbits)
    else c.done ()
  if n = 0 then c.done ()
  else
    ready.andThen fun c _ =>
      let start := if addBits then ((c.cregs.find? measRegister).map (·.start)).getD 0 else 0
      c.barrier.andThen fun c _ => c.measureEach start (List.range n)

/-- Makes sure that there are as many classical bits as entries in the output permutation: in a
new register of the given name if there are none, and in addition to those there are otherwise. -/
def provideBits (c : Circuit S) (name : String) : Outcome S Unit :=
  let required := c.outputPermutation.size
  if c.cregs.isEmpty then c.addClassicalRegister required name
  else if c.numClbits < required then
    if c.cregs.contains name then c.refuse (.insufficientClassicalBits required c.numClbits)
    else c.addClassicalRegister (required - c.numClbits) name
  else c.done ()

/-- The error for the first entry of the output permutation that cannot be measured. -/
def outputError? (c : Circuit S) : Option CircuitError :=
  c.outputPermutation.entries.findSome? fun e =>
    (c.qubitError? "measure" [e.1]).or (c.clbitError? "measure" [e.2])

/-- Measures each physical qubit of the output permutation into the bit of its logical qubit. -/
def appendMeasurements (c : Circuit S) (name : String) : Outcome S Unit :=
  (c.provideBits name).andThen fun c _ =>
    match c.outputError? with
    | some e => c.refuse e
    | none =>
        c.barrier.andThen fun c _ =>
          (c.pushAll (c.outputPermutation.entries.map fun e =>
            .nonUnitary (.ofMeasure [e.1] [e.2]))).done ()

end QuantumCircuit.Circuit
