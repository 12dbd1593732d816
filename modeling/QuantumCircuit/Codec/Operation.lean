import QuantumCircuit.Json.Decoder
import QuantumCircuit.Operation.Basic

/-!
# Operations as data

The JSON form of operations and of what they consist of: an encoder and a decoder for each type,
next to each other.  The decoders check ranges of numbers and the presence of fields, and nothing
else: an expression may list its terms in any order, and a gate may have any number of targets.
-/

namespace QuantumCircuit.Codec

open Json

/-- The index of a qubit or a classical bit, or the size of a range. -/
def decodeIndex : Decoder Nat :=
  asNatural maxIndex

/-- A number of 64 bits. -/
def decodeWord : Decoder Nat :=
  asNatural 0xffffffffffffffff

/-! ## Kinds, controls and registers -/

/-- The JSON form of a kind. -/
def encodeKind (k : OpKind) : Json :=
  .string k.tag

/-- Reads a kind. -/
def decodeKind : Decoder OpKind :=
  asName OpKind.ofTag?

/-- The tag of a polarity. -/
def polarityTag : Polarity → String
  | .positive => "Pos"
  | .negative => "Neg"

/-- The polarity of a tag. -/
def polarityOfTag? (tag : String) : Option Polarity :=
  [Polarity.positive, .negative].find? fun p => polarityTag p == tag

/-- The JSON form of a control. -/
def encodeControl (c : Control) : Json :=
  .object [("qubit", .ofNat c.qubit), ("kind", .string (polarityTag c.polarity))]

/-- Reads a control. -/
def decodeControl : Decoder Control :=
  asRecord ["qubit", "kind"] fun n fields =>
    match fields with
    | [qubit, polarity] => do
        let qubit ← required decodeIndex n qubit
        let polarity ← required (asName polarityOfTag?) n polarity
        some ⟨qubit, polarity⟩
    | _ => none

/-- The JSON form of controls, in their order. -/
def encodeControls (cs : Controls) : Json :=
  .ofList encodeControl cs.keys

/-- Reads controls, which may come in any order and more than once. -/
def decodeControls : Decoder Controls := fun n j =>
  (asList decodeControl n j).map SortedSet.ofList

/-- The JSON form of a register. -/
def encodeRegister (r : Register) : Json :=
  .object [("start", .ofNat r.start), ("size", .ofNat r.size)]

/-- Reads a register. -/
def decodeRegister : Decoder Register :=
  asRecord ["start", "size"] fun n fields =>
    match fields with
    | [start, size] => do
        let start ← required decodeIndex n start
        let size ← required decodeIndex n size
        some ⟨start, size⟩
    | _ => none

/-- The tag of a comparison. -/
def comparisonTag : Comparison → String
  | .eq => "Eq"
  | .neq => "Neq"
  | .lt => "Lt"
  | .leq => "Leq"
  | .gt => "Gt"
  | .geq => "Geq"

/-- The comparison of a tag. -/
def comparisonOfTag? (tag : String) : Option Comparison :=
  Comparison.all.find? fun c => comparisonTag c == tag

/-- The JSON form of a comparison. -/
def encodeComparison (c : Comparison) : Json :=
  .string (comparisonTag c)

/-- Reads a comparison. -/
def decodeComparison : Decoder Comparison :=
  asName comparisonOfTag?

/-! ## Parameters -/

/-- The JSON form of a term. -/
def encodeTerm [Library] (t : Term Float) : Json :=
  .object [("coefficient", .ofFloat t.coefficient), ("variable", .string t.name)]

/-- Reads a term. -/
def decodeTerm [Library] : Decoder (Term Float) :=
  asRecord ["coefficient", "variable"] fun n fields =>
    match fields with
    | [coefficient, name] => do
        let coefficient ← required asFloat n coefficient
        let name ← required asText n name
        some ⟨coefficient, name⟩
    | _ => none

/-- The JSON form of an expression. -/
def encodeExpression [Library] (e : Expression Float) : Json :=
  .object [("terms", .ofList encodeTerm e.terms), ("constant", .ofFloat e.constant)]

/-- Reads an expression. -/
def decodeExpression [Library] : Decoder (Expression Float) :=
  asRecord ["terms", "constant"] fun n fields =>
    match fields with
    | [terms, constant] => do
        let terms ← required (asList decodeTerm) n terms
        let constant ← required asFloat n constant
        some ⟨terms, constant⟩
    | _ => none

/-- The JSON form of a parameter. -/
def encodeParameter [Library] : Parameter Float → Json
  | .number v => .object [("Number", .ofFloat v)]
  | .symbol e => .object [("Symbol", encodeExpression e)]

/-- Reads a parameter. -/
def decodeParameter [Library] : Decoder (Parameter Float)
  | n + 1, j =>
      match choice? j with
      | some ("Number", content) => (asFloat n content).map .number
      | some ("Symbol", content) => (decodeExpression n content).map .symbol
      | _ => none
  | 0, _ => none

/-! ## Operations -/

/-- The JSON form of a gate. -/
def encodeGate {P : Type} (param : P → Json) (g : Gate P) : Json :=
  .object [("op_type", encodeKind g.kind), ("controls", encodeControls g.controls),
    ("targets", .ofList .ofNat g.targets), ("params", .ofList param g.params)]

/-- Reads a gate. -/
def decodeGate {P : Type} (param : Decoder P) : Decoder (Gate P) :=
  asRecord ["op_type", "controls", "targets", "params"] fun n fields =>
    match fields with
    | [kind, controls, targets, params] => do
        let kind ← required decodeKind n kind
        let controls ← required decodeControls n controls
        let targets ← required (asList decodeIndex) n targets
        let params ← required (asList param) n params
        some ⟨kind, controls, targets, params⟩
    | _ => none

/-- The JSON form of a measurement or a reset. -/
def encodeNonUnitary (e : NonUnitary) : Json :=
  .object [("op_type", encodeKind e.kind), ("targets", .ofList .ofNat e.targets),
    ("clbits", .ofList .ofNat e.clbits)]

/-- Reads a measurement or a reset. -/
def decodeNonUnitary : Decoder NonUnitary :=
  asRecord ["op_type", "targets", "clbits"] fun n fields =>
    match fields with
    | [kind, targets, clbits] => do
        let kind ← required decodeKind n kind
        let targets ← required (asList decodeIndex) n targets
        let clbits ← required (asList decodeIndex) n clbits
        some ⟨kind, targets, clbits⟩
    | _ => none

/-- Reads the register, the value and the comparison of a condition. -/
def decodeCondition (n : Nat) (register value comparison : Option Json) : Option Condition := do
  let register ← required decodeRegister n register
  let value ← required decodeWord n value
  let comparison ← required decodeComparison n comparison
  some ⟨register, value, comparison⟩

mutual

/-- The JSON form of an operation. -/
def encodeOperation [Library] : Operation Float → Json
  | .standard g => .object [("Standard", encodeGate .ofFloat g)]
  | .symbolic g => .object [("Symbolic", encodeGate encodeParameter g)]
  | .nonUnitary e => .object [("NonUnitary", encodeNonUnitary e)]
  | .conditioned op c =>
      .object [("ClassicControlled", .object
        [("op", encodeOperation op), ("control_register", encodeRegister c.register),
          ("expected_value", .ofNat c.value), ("comparison", encodeComparison c.comparison)])]
  | .compound ops => .object [("Compound", .object [("ops", .array (encodeOperations ops))])]
termination_by structural op => op

/-- The JSON forms of a list of operations. -/
def encodeOperations [Library] : List (Operation Float) → List Json
  | [] => []
  | op :: ops => encodeOperation op :: encodeOperations ops
termination_by structural ops => ops

end

/-- Reads an operation. -/
def decodeOperation [Library] : Decoder (Operation Float)
  | n + 1, j =>
      match choice? j with
      | some ("Standard", content) => (decodeGate asFloat n content).map .standard
      | some ("Symbolic", content) => (decodeGate decodeParameter n content).map .symbolic
      | some ("NonUnitary", content) => (decodeNonUnitary n content).map .nonUnitary
      | some ("ClassicControlled", content) =>
          match n with
          | m + 1 =>
              match fields? ["op", "control_register", "expected_value", "comparison"] content with
              | some [some op, register, value, comparison] => do
                  let op ← decodeOperation m op
                  let condition ← decodeCondition m register value comparison
                  some (.conditioned op condition)
              | _ => none
          | 0 => none
      | some ("Compound", content) =>
          match n with
          | m + 2 =>
              match fields? ["ops"] content with
              | some [some (.array items)] => (items.mapM (decodeOperation m)).map .compound
              | _ => none
          | _ => none
      | _ => none
  | 0, _ => none

/-- The JSON form of a block on its own. -/
def encodeBlock [Library] (ops : List (Operation Float)) : Json :=
  .object [("ops", .array (encodeOperations ops))]

/-- Reads a block on its own. -/
def decodeBlock [Library] : Decoder (List (Operation Float)) :=
  asRecord ["ops"] fun n fields =>
    match fields with
    | [ops] => required (asList decodeOperation) n ops
    | _ => none

/-! ## Texts -/

/-- The value of a text. -/
def decodeText? [Library] {α : Type} (d : Decoder α) (text : String) : Option α :=
  (parse? text).bind (d Library.maxNesting)

end QuantumCircuit.Codec
