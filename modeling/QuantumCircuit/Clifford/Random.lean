import QuantumCircuit.Circuit.Sequence
import QuantumCircuit.Clifford.Basic
import QuantumCircuit.Generator

/-!
# Random Clifford circuits

A random Clifford circuit is a wall of bricks.  Each layer puts random Clifford gates on
neighbouring pairs of qubits, and every other layer is shifted by one qubit.  One qubit gets one
gate on one qubit per layer, and two qubits get one on both.  Equal seeds give equal circuits.
-/

namespace QuantumCircuit.Clifford

variable {S : Type}

/-- The first qubits of the pairs in a layer. -/
def bricks (numQubits layer : Nat) : List Nat :=
  (List.range (numQubits - 1)).filter fun i => i % 2 = layer % 2

/-- The blocks on pairs that start at given qubits, with random indices. -/
def randomPairs : List Nat → Generator → List (Operation S) × Generator
  | [], g => ([], g)
  | i :: rest, g =>
      let (index, g) := g.draw twoQubitCount
      let (ops, g) := randomPairs rest g
      (.compound (twoQubit index i (i + 1)) :: ops, g)

/-- The blocks of one layer. -/
def randomLayer (numQubits layer : Nat) (g : Generator) : List (Operation S) × Generator :=
  match numQubits with
  | 0 => ([], g)
  | 1 =>
      let (index, g) := g.draw twoQubitCount
      ([.compound (oneQubit index 0)], g)
  | 2 => randomPairs [0] g
  | n => randomPairs (bricks n layer) g

/-- The blocks of `count` layers, the first of which has the number `layer`. -/
def randomLayers (numQubits layer : Nat) : Nat → Generator → List (Operation S)
  | 0, _ => []
  | count + 1, g =>
      let (ops, g) := randomLayer numQubits layer g
      ops ++ randomLayers numQubits (layer + 1) count g

/-- The number of layers with which a circuit of a given depth is filled.  Without qubits every
layer is empty, and there are none. -/
def numLayers (numQubits depth : Nat) : Nat :=
  if numQubits = 0 then 0 else depth

/-- A random circuit of a number of layers; none if there are not enough indices for its
qubits. -/
def randomCircuit? [Scalar S] (numQubits depth seed : Nat) : Option (Circuit S) :=
  (Circuit.withSeed? numQubits 0 seed).map fun c =>
    let named := { c with name := "random_clifford_" ++ toString numQubits }
    named.pushAll (randomLayers numQubits 0 (numLayers numQubits depth) (Generator.ofSeed seed))

end QuantumCircuit.Clifford
