import QuantumCircuit.Operation.Basic

/-!
# The qubits of an operation

`usedQubits` and `actsOn` say which qubits an operation touches, and `remap` renames them.  A block
touches what its operations touch.  An operation under a condition touches the controls and targets
that it shows as its own.
-/

namespace QuantumCircuit.Operation

variable {S : Type}

/-- The qubits of the operation's own controls and targets. -/
def ownQubits (op : Operation S) : SortedSet Nat :=
  SortedSet.ofList (op.controls.keys.map (·.qubit) ++ op.targets)

/-- Whether a qubit is among the operation's own targets and controls. -/
def ownsQubit (op : Operation S) (q : Nat) : Bool :=
  op.targets.contains q || op.controls.keys.any (·.qubit == q)

mutual

/-- The qubits that an operation touches. -/
def usedQubits : Operation S → SortedSet Nat
  | .standard g => ownQubits (.standard g)
  | .symbolic g => ownQubits (.symbolic g)
  | .nonUnitary e => ownQubits (.nonUnitary e : Operation S)
  | .conditioned op c => ownQubits (.conditioned op c)
  | .compound ops => usedQubitsAll ops
termination_by structural op => op

/-- The qubits that the operations of a list touch. -/
def usedQubitsAll : List (Operation S) → SortedSet Nat
  | [] => .empty
  | op :: ops => SortedSet.union (usedQubitsAll ops) op.usedQubits
termination_by structural ops => ops

end

mutual

/-- Whether an operation touches a qubit. -/
def actsOn (q : Nat) : Operation S → Bool
  | .standard g => ownsQubit (.standard g) q
  | .symbolic g => ownsQubit (.symbolic g) q
  | .nonUnitary e => ownsQubit (.nonUnitary e : Operation S) q
  | .conditioned op c => ownsQubit (.conditioned op c) q
  | .compound ops => anyActsOn q ops
termination_by structural op => op

/-- Whether some operation of a list touches a qubit. -/
def anyActsOn (q : Nat) : List (Operation S) → Bool
  | [] => false
  | op :: ops => op.actsOn q || anyActsOn q ops
termination_by structural ops => ops

end

/-- One more than the greatest qubit that is touched, and zero if there is none. -/
def width (op : Operation S) : Nat :=
  match op.usedQubits.lastKey? with
  | some q => q + 1
  | none => 0

/-- A control on the qubit with the new name. -/
def remapControl (f : Nat → Nat) (c : Control) : Control :=
  { c with qubit := f c.qubit }

/-- Renames the controls and targets of a gate. -/
def remapGate {P : Type} (f : Nat → Nat) (g : Gate P) : Gate P :=
  { g with
    controls := SortedSet.ofList (g.controls.keys.map (remapControl f))
    targets := g.targets.map f }

mutual

/-- Renames every qubit, also under conditions and in blocks. -/
def remap (f : Nat → Nat) : Operation S → Operation S
  | .standard g => .standard (remapGate f g)
  | .symbolic g => .symbolic (remapGate f g)
  | .nonUnitary e => .nonUnitary { e with targets := e.targets.map f }
  | .conditioned op c => .conditioned (op.remap f) c
  | .compound ops => .compound (remapAll f ops)
termination_by structural op => op

/-- Renames every qubit in a list of operations. -/
def remapAll (f : Nat → Nat) : List (Operation S) → List (Operation S)
  | [] => []
  | op :: ops => op.remap f :: remapAll f ops
termination_by structural ops => ops

end

mutual

/-- The greatest classical bit that is measured into, also in blocks. -/
def highestClbit? : Operation S → Option Nat
  | .standard _ => none
  | .symbolic _ => none
  | .nonUnitary e => e.clbits.max?
  | .conditioned _ _ => none
  | .compound ops => highestClbitAll? ops
termination_by structural op => op

/-- The greatest classical bit that is measured into in a list. -/
def highestClbitAll? : List (Operation S) → Option Nat
  | [] => none
  | op :: ops =>
      match op.highestClbit?, highestClbitAll? ops with
      | some b, some c => some (max b c)
      | some b, none => some b
      | none, rest => rest
termination_by structural ops => ops

end

end QuantumCircuit.Operation
