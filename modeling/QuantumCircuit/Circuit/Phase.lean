import QuantumCircuit.Circuit.Basic

/-!
# The global phase

The global phase lies in one turn from zero on.  After an angle is added it is brought back there
by adding or subtracting turns.  A phase of many turns is replaced by its remainder first, because
stepping stalls once a turn is lost in the rounding of the phase.
-/

namespace QuantumCircuit.Circuit

variable {S : Type} [Scalar S]

/-- The number of turns from which on a phase is replaced by its remainder. -/
def manyTurns : Nat :=
  1024

/-- Adds turns to a negative phase, at most so many. -/
def raisePhase : Nat → S → S
  | 0, phase => phase
  | n + 1, phase =>
      if Scalar.lt phase Scalar.zero then raisePhase n (phase + Scalar.turn) else phase

/-- Subtracts turns from a phase of at least one turn, at most so many. -/
def lowerPhase : Nat → S → S
  | 0, phase => phase
  | n + 1, phase =>
      if Scalar.le Scalar.turn phase then lowerPhase n (phase - Scalar.turn) else phase

/-- The phase of the same direction in one turn from zero on.  What is left to step has fewer than
`manyTurns` turns, so that many steps are enough, and two more for what rounding adds. -/
def normalizePhase (phase : S) : S :=
  let reduced :=
    if Scalar.le (Scalar.ofNat manyTurns * Scalar.turn) (Scalar.abs phase) then
      Scalar.floorRemainder phase Scalar.turn
    else phase
  lowerPhase (manyTurns + 2) (raisePhase (manyTurns + 2) reduced)

/-- Adds an angle to the global phase; an angle that is not finite is ignored. -/
def addPhase (c : Circuit S) (angle : S) : Circuit S :=
  if Scalar.isFinite angle then { c with globalPhase := normalizePhase (c.globalPhase + angle) }
  else c

end QuantumCircuit.Circuit
