import QuantumCircuit.Circuit.Statistics
import QuantumCircuit.Codec.Operation
import QuantumCircuit.Json.Library
import QuantumCircuit.Tensor.Export

/-!
# Settings, statistics and tensors as data

The JSON form of what surrounds a circuit.  Settings and export options have a default for every
field, all other structures have none.
-/

namespace QuantumCircuit.Codec

open Json

/-! ## Settings -/

/-- The JSON form of settings. -/
def encodeConfig (c : Config) : Json :=
  .object [("name", .string c.name), ("num_qubits", .ofNat c.numQubits),
    ("num_clbits", .ofNat c.numClbits), ("seed", .ofNat c.seed),
    ("qreg_name", .string c.qregName), ("creg_name", .string c.cregName),
    ("ancreg_name", .string c.ancregName)]

/-- Reads settings. -/
def decodeConfig : Decoder Config :=
  asRecord
    ["name", "num_qubits", "num_clbits", "seed", "qreg_name", "creg_name", "ancreg_name"]
    fun n fields =>
      match fields with
      | [name, numQubits, numClbits, seed, qregName, cregName, ancregName] => do
          let d := Config.default
          let name ← optional asText d.name n name
          let numQubits ← optional decodeWord d.numQubits n numQubits
          let numClbits ← optional decodeWord d.numClbits n numClbits
          let seed ← optional decodeWord d.seed n seed
          let qregName ← optional asText d.qregName n qregName
          let cregName ← optional asText d.cregName n cregName
          let ancregName ← optional asText d.ancregName n ancregName
          some { name, numQubits, numClbits, seed, qregName, cregName, ancregName }
      | _ => none

/-- The JSON form of export options. -/
def encodeExportOptions (o : ExportOptions) : Json :=
  .object [("envelope", .bool o.envelope)]

/-- Reads export options. -/
def decodeExportOptions : Decoder ExportOptions :=
  asRecord ["envelope"] fun n fields =>
    match fields with
    | [envelope] => (optional asBool ExportOptions.default.envelope n envelope).map .mk
    | _ => none

/-! ## Statistics -/

/-- The JSON form of a summary. -/
def encodeStatistics [Library] (s : Statistics Float) : Json :=
  .object [("name", .string s.name), ("num_qubits", .ofNat s.numQubits),
    ("num_ancillae", .ofNat s.numAncillae), ("num_classical_bits", .ofNat s.numClbits),
    ("num_ops", .ofNat s.numOps), ("num_individual_ops", .ofNat s.numIndividualOps),
    ("num_single_qubit_ops", .ofNat s.numSingleQubitOps), ("depth", .ofNat s.depth),
    ("global_phase", .ofFloat s.globalPhase),
    ("op_counts", .object (s.opCounts.entries.map fun e => (e.1, .ofNat e.2)))]

/-- Reads a summary. -/
def decodeStatistics [Library] : Decoder (Statistics Float) :=
  asRecord
    ["name", "num_qubits", "num_ancillae", "num_classical_bits", "num_ops", "num_individual_ops",
      "num_single_qubit_ops", "depth", "global_phase", "op_counts"]
    fun n fields =>
      match fields with
      | [name, numQubits, numAncillae, numClbits, numOps, numIndividualOps, numSingleQubitOps,
          depth, globalPhase, opCounts] => do
          let name ← required asText n name
          let numQubits ← required decodeWord n numQubits
          let numAncillae ← required decodeWord n numAncillae
          let numClbits ← required decodeWord n numClbits
          let numOps ← required decodeWord n numOps
          let numIndividualOps ← required decodeWord n numIndividualOps
          let numSingleQubitOps ← required decodeWord n numSingleQubitOps
          let depth ← required decodeWord n depth
          let globalPhase ← required asFloat n globalPhase
          let opCounts ← required (asMembers decodeWord) n opCounts
          some { name, numQubits, numAncillae, numClbits, numOps, numIndividualOps,
                 numSingleQubitOps, depth, globalPhase, opCounts := SortedMap.ofList opCounts }
      | _ => none

/-! ## Tensors -/

/-- The JSON form of a complex number. -/
def encodeComplex [Library] (z : Complex Float) : Json :=
  .array [.ofFloat z.re, .ofFloat z.im]

/-- Reads a complex number. -/
def decodeComplex [Library] : Decoder (Complex Float) := fun n j => do
  match ← asList asFloat n j with
  | [re, im] => some ⟨re, im⟩
  | _ => none

/-- The JSON form of a tensor. -/
def encodeTensor [Library] (t : TensorRecord Float) : Json :=
  .array [.ofList .string t.tags, .ofList .string t.legs, .ofList .ofNat t.shape,
    .ofList encodeComplex t.data]

/-- Reads a tensor. -/
def decodeTensor [Library] : Decoder (TensorRecord Float)
  | n + 1, .array [tags, legs, shape, data] => do
      let tags ← asList asText n tags
      let legs ← asList asText n legs
      let shape ← asList decodeWord n shape
      let data ← asList decodeComplex n data
      some { tags, legs, shape, data }
  | _, _ => none

/-- The text of a tensor in a listing. -/
def tensorText [Library] (t : TensorRecord Float) : String :=
  (encodeTensor t).text

end QuantumCircuit.Codec
