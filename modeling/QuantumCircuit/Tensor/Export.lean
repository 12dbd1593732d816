import QuantumCircuit.Circuit.Layout
import QuantumCircuit.Counters
import QuantumCircuit.Tensor.Backend

/-!
# Tensor networks of circuits

The export turns each gate of a circuit into a record: tags that name the gate, its qubits and its
place; legs; the size of each leg; and the entries of the gate's matrix.  Leg `q<n>_<k>` is the
`k`-th piece of the wire of qubit `n`, so gates that follow each other on a qubit share a leg.

A `Tape` holds what the export keeps from gate to gate.  It is given back on failure too, with the
records that were written before, and with the legs of a gate that the backend refused.
-/

namespace QuantumCircuit

/-- A tensor. -/
structure TensorRecord (S : Type) where
  /-- The name of the gate, its qubits, and its place. -/
  tags : List String
  /-- The ingoing legs and then the outgoing ones. -/
  legs : List String
  /-- The size of each leg. -/
  shape : List Nat
  /-- The entries of the matrix row by row. -/
  data : List (Complex S)

/-- What the export keeps from gate to gate. -/
structure Tape (S σ : Type) where
  /-- For each qubit, the number of its next leg. -/
  legs : Counters
  /-- The place of the next record. -/
  ordinal : Nat
  /-- The state of the backend. -/
  backend : σ
  /-- The records that were written, each with its place. -/
  written : List (Nat × TensorRecord S)

namespace Tape

variable {S σ : Type}

/-! ## The parts of a record -/

/-- The role of each qubit of a gate: a control of some polarity, or none for a target.  Targets
count before controls, and of two controls on one qubit the negative one counts. -/
def roles (g : Gate S) : SortedMap Nat (Option Polarity) :=
  ((SortedMap.ofList (g.controls.keys.map fun c => (c.qubit, some c.polarity))).insertAll
    (g.targets.map fun q => (q, none)))

/-- The gate with each qubit replaced by its rank among the qubits of the gate. -/
def localGate (g : Gate S) : Gate S :=
  let qubits := (roles g).keys
  let control (e : Nat × Option Polarity) : Option Control :=
    e.2.map fun polarity => ⟨qubits.idxOf e.1, polarity⟩
  { g with
    controls := SortedSet.ofList ((roles g).entries.filterMap control)
    targets := g.targets.map qubits.idxOf }

/-- The tags of a gate at a place. -/
def tags (g : Gate S) (ordinal : Nat) : List String :=
  g.name :: g.operands.map (fun q => "Q" ++ toString q) ++ ["GATE" ++ toString ordinal]

/-- The name of a leg. -/
def legName (q k : Nat) : String :=
  "q" ++ toString q ++ "_" ++ toString k

/-- The names of the legs that some qubits have next, or so many legs later. -/
def legNames (legs : Counters) (later : Nat) (qubits : List Nat) : List String :=
  qubits.map fun q => legName q (legs.get q + later)

/-- The legs after a gate on some qubits. -/
def advance (legs : Counters) (qubits : List Nat) : Counters :=
  qubits.foldl Counters.increment legs

/-! ## Writing -/

/-- Writes the record of a gate. -/
def writeGate (b : Backend S σ) (g : Gate S) (t : Tape S σ) : Tape S σ × TensorResult Unit :=
  let qubits := (roles g).keys
  match qubits.find? fun q => t.legs.width ≤ q with
  | some q =>
      (t, .error (.refused (.circuit (.qubitOutOfRange q t.legs.width (some g.name)))))
  | none =>
      let descending := qubits.reverse
      let (backend, diagram) := b.build t.backend (.standard (localGate g))
      let moved := { t with legs := advance t.legs qubits, backend }
      match diagram.bind fun d => orFault (d.matrix? qubits.length) with
      | .error e => (moved, .error e)
      | .ok m =>
          let record : TensorRecord S :=
            { tags := tags g t.ordinal
              legs := legNames t.legs 0 descending ++ legNames t.legs 1 descending
              shape := List.replicate (2 * qubits.length) 2
              data := m.toList }
          ({ moved with
              ordinal := t.ordinal + 1
              written := t.written ++ [(t.ordinal, record)] }, .ok ())

mutual

/-- Writes the records of an operation.  Barriers and measurements have none, and the operations of
a block have theirs one after the other. -/
def write (b : Backend S σ) (t : Tape S σ) : Operation S → Tape S σ × TensorResult Unit
  | .standard g => if g.kind = .barrier then (t, .ok ()) else writeGate b g t
  | .symbolic g => (t, .error (.refused (.unsupportedOperation g.name)))
  | .nonUnitary e =>
      if e.kind = .measure then (t, .ok ())
      else (t, .error (.refused (.unsupportedOperation e.kind.name)))
  | .conditioned op _ => (t, .error (.refused (.unsupportedOperation ("c_" ++ op.name))))
  | .compound ops => writeAll b t ops
termination_by structural op => op

/-- Writes the records of a list of operations up to the first that fails. -/
def writeAll (b : Backend S σ) (t : Tape S σ) : List (Operation S) → Tape S σ × TensorResult Unit
  | [] => (t, .ok ())
  | op :: ops =>
      match write b t op with
      | (t, .ok ()) => writeAll b t ops
      | (t, .error e) => (t, .error e)
termination_by structural ops => ops

end

/-! ## Listings -/

/-- The text of a record at its place: every record but the first has a separator in front. -/
def entryText (recordText : TensorRecord S → String) (e : Nat × TensorRecord S) : String :=
  (if e.1 = 0 then "" else ",\n") ++ recordText e.2

/-- The text of the records that were written. -/
def text (recordText : TensorRecord S → String) (t : Tape S σ) : String :=
  String.join (t.written.map (entryText recordText))

end Tape

/-- How a network is written. -/
structure ExportOptions where
  /-- Whether the records are wrapped in an object. -/
  envelope : Bool
deriving DecidableEq

/-- Records are wrapped if nothing else is said. -/
def ExportOptions.default : ExportOptions :=
  ⟨true⟩

instance : Inhabited ExportOptions := ⟨ExportOptions.default⟩

namespace Network

variable {S σ : Type}

/-- The number of qubits that have legs: up to the highest physical qubit, and at least as many as
the circuit counts. -/
def width (c : Circuit S) : Nat :=
  max (match c.highestPhysical? with
    | some q => q + 1
    | none => 0) c.numTotalQubits

/-- Writes the records of a circuit.  Every qubit starts with leg zero. -/
def write (b : Backend S σ) (backend : σ) (c : Circuit S) : Tape S σ × TensorResult Unit :=
  Tape.writeAll b ⟨.zero (width c), 0, backend, []⟩ c.ops

/-- The text of a network: what was written, in an envelope on request, which is closed only if
nothing failed. -/
def text (recordText : TensorRecord S → String) (options : ExportOptions)
    (outcome : Tape S σ × TensorResult Unit) : String :=
  let opening := if options.envelope then "\x7b\"tensors\": [\n" else ""
  let closing := if options.envelope then "\n]\x7d\n" else ""
  opening ++ outcome.1.text recordText ++
    match outcome.2 with
    | .ok () => closing
    | .error _ => ""

end Network

end QuantumCircuit
