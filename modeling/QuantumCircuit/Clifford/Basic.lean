import QuantumCircuit.Operation.Basic

/-!
# Clifford gates as gate sequences

Up to the global phase there are 24 Clifford gates on one qubit and 11520 on two.  An index selects
one.  For two qubits, the index modulo 16 selects the Pauli gates at the end, and the rest one of
four classes: no controlled X gate (36 elements), one (324), two (324), or three (36).  Indices
beyond the group wrap around.
-/

namespace QuantumCircuit.Clifford

variable {S : Type}

/-- The number of Clifford gates on one qubit. -/
def oneQubitCount : Nat :=
  24

/-- The number of Clifford gates on two qubits. -/
def twoQubitCount : Nat :=
  11520

/-- A gate without controls and parameters. -/
def gate (kind : OpKind) (target : Nat) : Operation S :=
  .standard ⟨kind, .empty, [target], []⟩

/-- A controlled X gate. -/
def controlledX (control target : Nat) : Operation S :=
  .standard ⟨.x, SortedSet.ofList [⟨control, .positive⟩], [target], []⟩

/-- A Hadamard gate if a digit of the index is odd. -/
def hadamardIf (digit : Nat) (target : Nat) : List (Operation S) :=
  if digit % 2 = 0 then [] else [gate .h target]

/-- A cyclic permutation of the Pauli axes. -/
def axisRotation (selector : Nat) (target : Nat) : List (Operation S) :=
  match selector with
  | 1 => [gate .h target, gate .s target]
  | 2 => [gate .sdg target, gate .h target]
  | _ => []

/-- A Pauli gate or none. -/
def pauli (selector : Nat) (target : Nat) : List (Operation S) :=
  match selector with
  | 1 => [gate .z target]
  | 2 => [gate .x target]
  | 3 => [gate .y target]
  | _ => []

/-- The Clifford gate on one qubit with an index. -/
def oneQubit (index target : Nat) : List (Operation S) :=
  let id := index % oneQubitCount
  hadamardIf (id / 12) target ++ axisRotation (id / 4 % 3) target ++ pauli (id % 4) target

/-- Hadamard gates and axis rotations on two qubits, selected by the digits of a number below
36. -/
def localPair (id control target : Nat) : List (Operation S) :=
  hadamardIf (id / 9) control ++ hadamardIf (id / 18) target
    ++ axisRotation (id / 3 % 3) control ++ axisRotation (id % 3) target

/-- The elements with one controlled X gate, or with two in opposite directions, between local
gates; selected by a number below 324. -/
def entangled (id : Nat) (double : Bool) (control target : Nat) : List (Operation S) :=
  hadamardIf (id / 81) control ++ hadamardIf (id / 162) target
    ++ axisRotation (id / 27 % 3) control ++ axisRotation (id / 9 % 3) target
    ++ [controlledX control target]
    ++ (if double then [controlledX target control] else [])
    ++ axisRotation (id / 3 % 3) control ++ axisRotation (id % 3) target

/-- The part of a Clifford gate on two qubits before the Pauli gates. -/
def twoQubitClass (id control target : Nat) : List (Operation S) :=
  if id < 36 then localPair id control target
  else if id < 360 then entangled (id - 36) false control target
  else if id < 684 then entangled (id - 360) true control target
  else
    localPair (id - 684) control target
      ++ [controlledX control target, controlledX target control, controlledX control target]

/-- The Clifford gate on two qubits with an index. -/
def twoQubit (index control target : Nat) : List (Operation S) :=
  let id := index % twoQubitCount
  twoQubitClass (id / 16) control target
    ++ pauli (id % 16 % 4) control ++ pauli (id % 16 / 4) target

end QuantumCircuit.Clifford
