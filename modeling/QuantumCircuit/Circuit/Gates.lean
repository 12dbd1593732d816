import QuantumCircuit.Circuit.Sequence

/-!
# Taking gates in

Every gate enters a circuit through `emit`, which checks the number of targets and parameters and
the range of the operands.  If all parameters are numbers the gate is a standard one, and otherwise
it is symbolic.  A `Shorthand` is a named gate of fixed shape.

Qubit operands are checked against the number of qubits, bits against the number of classical
bits; controls come before targets.
-/

namespace QuantumCircuit.Circuit

variable {S : Type} [Scalar S]

/-! ## Checks -/

/-- The error for the first qubit of a list that is out of range. -/
def qubitError? (c : Circuit S) (gate : String) (qubits : List Nat) : Option CircuitError :=
  (qubits.find? fun q => c.numTotalQubits ≤ q).map fun q =>
    .qubitOutOfRange q c.numTotalQubits (some gate)

/-- The error for the first classical bit of a list that is out of range. -/
def clbitError? (c : Circuit S) (gate : String) (bits : List Nat) : Option CircuitError :=
  (bits.find? fun b => c.numClbits ≤ b).map fun b => .clbitOutOfRange b c.numClbits (some gate)

/-- The error for a kind that is no gate, or for a wrong number of targets or parameters. -/
def arityError? (kind : OpKind) (targets params : Nat) : Option CircuitError :=
  match kind.targetCount? with
  | none => some (.notAGate kind.name)
  | some expected =>
      if targets ≠ expected then some (.targetCountMismatch kind.name expected targets)
      else if params ≠ kind.paramCount then
        some (.parameterCountMismatch kind.name kind.paramCount params)
      else none

/-- Appends an operation unless there is an error. -/
def pushUnless (c : Circuit S) (error : Option CircuitError) (op : Operation S) : Outcome S Unit :=
  match error with
  | some e => c.refuse e
  | none => (c.push op).done ()

/-! ## Gates -/

/-- The gate of some parameters: a standard one if all of them are numbers. -/
def gateOperation (kind : OpKind) (params : List (Parameter S)) (controls : Controls)
    (targets : List Nat) : Operation S :=
  match params.mapM Parameter.number? with
  | some values => .standard ⟨kind, controls, targets, values⟩
  | none => .symbolic ⟨kind, controls, targets, params⟩

/-- Appends a gate. -/
def emit (c : Circuit S) (kind : OpKind) (params : List (Parameter S)) (controls : Controls)
    (targets : List Nat) : Outcome S Unit :=
  c.pushUnless
    ((arityError? kind targets.length params.length).or
      (c.qubitError? kind.name (controls.keys.map (·.qubit) ++ targets)))
    (gateOperation kind params controls targets)

/-- Appends a gate on one target under a condition on classical bits. -/
def emitConditioned (c : Circuit S) (kind : OpKind) (target : Nat) (controls : Controls)
    (condition : Condition) (params : List S) : Outcome S Unit :=
  let registerError? : Option CircuitError :=
    if c.numClbits < condition.register.stop then
      some (.classicalRegisterOutOfRange condition.register.start condition.register.size
        c.numClbits)
    else none
  c.pushUnless
    (((arityError? kind 1 params.length).or
      (c.qubitError? kind.name (controls.keys.map (·.qubit) ++ [target]))).or registerError?)
    (.conditioned (.standard ⟨kind, controls, [target], params⟩) condition)

/-! ## Measurements, resets and barriers -/

/-- Appends a measurement of qubits into the classical bits at the same positions. -/
def measureQubits (c : Circuit S) (qubits bits : List Nat) : Outcome S Unit :=
  if qubits.length ≠ bits.length then
    c.refuse (.measurementArityMismatch qubits.length bits.length)
  else
    c.pushUnless ((c.qubitError? "measure" qubits).or (c.clbitError? "measure" bits))
      (.nonUnitary (.ofMeasure qubits bits))

/-- Appends a measurement of one qubit into one classical bit. -/
def measure (c : Circuit S) (qubit bit : Nat) : Outcome S Unit :=
  c.measureQubits [qubit] [bit]

/-- Appends a reset of qubits. -/
def resetQubits (c : Circuit S) (qubits : List Nat) : Outcome S Unit :=
  c.pushUnless (c.qubitError? "reset" qubits) (.nonUnitary (.ofReset qubits))

/-- Appends a reset of one qubit. -/
def reset (c : Circuit S) (qubit : Nat) : Outcome S Unit :=
  c.resetQubits [qubit]

/-- Appends a barrier over qubits. -/
def barrierOn (c : Circuit S) (qubits : List Nat) : Outcome S Unit :=
  c.pushUnless (c.qubitError? "barrier" qubits) (.standard ⟨.barrier, .empty, qubits, []⟩)

/-- Appends a barrier over as many qubits as are not ancillary, from the first index on. -/
def barrier (c : Circuit S) : Outcome S Unit :=
  c.barrierOn (List.range c.numQubits)

end QuantumCircuit.Circuit

namespace QuantumCircuit

/-! ## Named gates -/

/-- How many controls a named gate takes. -/
inductive ControlCount where
  /-- None. -/
  | none
  /-- One. -/
  | one
  /-- Two, given as the first two qubits. -/
  | two
  /-- Any number. -/
  | many
deriving DecidableEq, Repr

/-- A named gate: a kind with a number of controls. -/
structure Shorthand where
  /-- The name. -/
  name : String
  /-- The kind of the gate. -/
  kind : OpKind
  /-- The number of controls. -/
  controls : ControlCount
deriving DecidableEq, Repr

namespace Shorthand

/-- The kinds of which a gate without controls has a name. -/
def plainKinds : List OpKind :=
  [.i, .h, .x, .y, .z, .s, .sdg, .t, .tdg, .v, .vdg, .sx, .sxdg, .rx, .ry, .rz, .p, .u2, .u,
    .swap, .iswap, .iswapdg, .peres, .peresdg, .dcx, .ecr, .rxx, .ryy, .rzz, .rzx, .xxMinusYY,
    .xxPlusYY]

/-- The kinds of which gates with one control, and with any number of controls, have a name. -/
def controlledKinds : List OpKind :=
  [.x, .y, .z, .h, .p, .rx, .ry, .rz, .swap]

/-- All named gates. -/
def all : List Shorthand :=
  plainKinds.map (fun k => ⟨k.name, k, .none⟩)
    ++ controlledKinds.map (fun k => ⟨"c" ++ k.name, k, .one⟩)
    ++ controlledKinds.map (fun k => ⟨"mc" ++ k.name, k, .many⟩)
    ++ [⟨"ccx", .x, .two⟩]

/-- The named gate of a name. -/
def ofName? (name : String) : Option Shorthand :=
  all.find? fun s => s.name == name

/-- The controls that a named gate uses, and its targets. -/
def operands (s : Shorthand) (controls : List Control) (qubits : List Nat) :
    Controls × List Nat :=
  match s.controls with
  | .none => (.empty, qubits)
  | .one => (SortedSet.ofList (controls.take 1), qubits)
  | .many => (SortedSet.ofList controls, qubits)
  | .two => (SortedSet.ofList ((qubits.take 2).map (⟨·, .positive⟩)), qubits.drop 2)

end Shorthand

/-- Appends a named gate. -/
def Circuit.apply {S : Type} [Scalar S] (c : Circuit S) (s : Shorthand)
    (params : List (Parameter S)) (controls : List Control) (qubits : List Nat) :
    Outcome S Unit :=
  let (controls, targets) := s.operands controls qubits
  c.emit s.kind params controls targets

end QuantumCircuit
