import QuantumCircuit.Circuit.Sequence
import QuantumCircuit.Operation.Inverse

/-!
# Transformations of whole circuits

Inverting a circuit, binding its variables, and turning it into one operation and back.
-/

namespace QuantumCircuit.Circuit

variable {S : Type}

/-- Inverts the circuit.  The initial layout and the output permutation change places if they have
the same number of entries. -/
def invert [Scalar S] (c : Circuit S) : Circuit S :=
  let inverted := { c with ops := Operation.invertAll c.ops }
  if c.initialLayout.size = c.outputPermutation.size then
    { inverted with
      initialLayout := c.outputPermutation
      outputPermutation := c.initialLayout }
  else inverted

@[simp]
theorem ops_invert [Scalar S] (c : Circuit S) :
    c.invert.ops = Operation.invertAll c.ops := by
  simp only [invert, apply_ite ops, ite_self]

@[simp]
theorem globalPhase_invert [Scalar S] (c : Circuit S) : c.invert.globalPhase = c.globalPhase := by
  simp only [invert, apply_ite globalPhase, ite_self]

/-- Replaces the variables that an assignment binds, and drops them from the recorded ones. -/
def instantiate [Scalar S] (c : Circuit S) (a : Assignment S) : Circuit S :=
  { c with
    ops := Operation.instantiateAll a c.ops
    variableNames := c.variableNames.filterKeys fun x => (a.value? x).isNone }

/-- Takes all operations out as one block. -/
def takeBlock (c : Circuit S) : Outcome S (List (Operation S)) :=
  { c with ops := [] }.done c.ops

/-- Takes all operations out as one operation: none if there are none, the operation itself if
there is one, and a block otherwise. -/
def takeOperation (c : Circuit S) : Outcome S (Option (Operation S)) :=
  let answer := match c.ops with
    | [] => none
    | [op] => some op
    | ops => some (.compound ops)
  { c with ops := [] }.done answer

/-- The circuit of the operations of a block, with one quantum register up to the highest qubit
that they touch and one classical register up to the highest bit that they measure into; none if
there are not enough indices for that. -/
def ofBlock? [Scalar S] (ops : List (Operation S)) : Option (Circuit S) :=
  let numQubits := (ops.map Operation.width).max?.getD 0
  let numClbits := match (ops.filterMap Operation.highestClbit?).max? with
    | some b => b + 1
    | none => 0
  (withSize? numQubits numClbits).map fun c => c.pushAll ops

/-- Gives the circuit another name. -/
def rename (c : Circuit S) (name : String) : Circuit S :=
  { c with name }

/-- Gives the circuit another seed. -/
def reseed (c : Circuit S) (seed : Nat) : Circuit S :=
  { c with seed }

end QuantumCircuit.Circuit
