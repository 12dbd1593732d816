import QuantumCircuit.Binary64
import QuantumCircuit.Circuit.Basic
import QuantumCircuit.Circuit.Gates
import QuantumCircuit.Circuit.Layout
import QuantumCircuit.Circuit.Measurements
import QuantumCircuit.Circuit.Phase
import QuantumCircuit.Circuit.Qubits
import QuantumCircuit.Circuit.Registers
import QuantumCircuit.Circuit.Reorder
import QuantumCircuit.Circuit.Sequence
import QuantumCircuit.Circuit.Statistics
import QuantumCircuit.Circuit.Strip
import QuantumCircuit.Circuit.Text
import QuantumCircuit.Circuit.Transform
import QuantumCircuit.Clifford.Basic
import QuantumCircuit.Clifford.Random
import QuantumCircuit.Codec.Circuit
import QuantumCircuit.Codec.Operation
import QuantumCircuit.Counters
import QuantumCircuit.Decimal.Numeral
import QuantumCircuit.Decimal.Shortest
import QuantumCircuit.Error
import QuantumCircuit.Expression
import QuantumCircuit.GateMatrix
import QuantumCircuit.Generator
import QuantumCircuit.Graph
import QuantumCircuit.Json.Basic
import QuantumCircuit.Json.Decoder
import QuantumCircuit.Json.Library
import QuantumCircuit.Json.Parser
import QuantumCircuit.Json.Writer
import QuantumCircuit.Matrix
import QuantumCircuit.OpKind
import QuantumCircuit.Operation.Analysis
import QuantumCircuit.Operation.Basic
import QuantumCircuit.Operation.Inverse
import QuantumCircuit.Operation.Qubits
import QuantumCircuit.Operation.Text
import QuantumCircuit.Qubit
import QuantumCircuit.Registers.Basic
import QuantumCircuit.Registers.Edit
import QuantumCircuit.Scalar
import QuantumCircuit.SortedMap
import QuantumCircuit.Tensor.Backend
import QuantumCircuit.Tensor.Dense
import QuantumCircuit.Tensor.Export
import QuantumCircuit.Proofs.Circuit.Admission
import QuantumCircuit.Proofs.Circuit.Checked
import QuantumCircuit.Proofs.Circuit.Compact
import QuantumCircuit.Proofs.Circuit.Counts
import QuantumCircuit.Proofs.Circuit.Depth
import QuantumCircuit.Proofs.Circuit.Dynamic
import QuantumCircuit.Proofs.Circuit.Emission
import QuantumCircuit.Proofs.Circuit.Flattening
import QuantumCircuit.Proofs.Circuit.Gapless
import QuantumCircuit.Proofs.Circuit.Growth
import QuantumCircuit.Proofs.Circuit.Instances
import QuantumCircuit.Proofs.Circuit.Inverse
import QuantumCircuit.Proofs.Circuit.Involution
import QuantumCircuit.Proofs.Circuit.Labels
import QuantumCircuit.Proofs.Circuit.Layout
import QuantumCircuit.Proofs.Circuit.Lookup
import QuantumCircuit.Proofs.Circuit.Marks
import QuantumCircuit.Proofs.Circuit.Measurements
import QuantumCircuit.Proofs.Circuit.Operands
import QuantumCircuit.Proofs.Circuit.Outputs
import QuantumCircuit.Proofs.Circuit.Phase
import QuantumCircuit.Proofs.Circuit.Reachable
import QuantumCircuit.Proofs.Circuit.Rebuild
import QuantumCircuit.Proofs.Circuit.Refusal
import QuantumCircuit.Proofs.Circuit.Removal
import QuantumCircuit.Proofs.Circuit.Renaming
import QuantumCircuit.Proofs.Circuit.Renumbering
import QuantumCircuit.Proofs.Circuit.Spans
import QuantumCircuit.Proofs.Circuit.Sparse
import QuantumCircuit.Proofs.Circuit.Strip
import QuantumCircuit.Proofs.Circuit.Undoing
import QuantumCircuit.Proofs.Circuit.Variables
import QuantumCircuit.Proofs.Codec.Operation
import QuantumCircuit.Proofs.Counters
import QuantumCircuit.Proofs.Decimal.Canonical
import QuantumCircuit.Proofs.Decimal.Numeral
import QuantumCircuit.Proofs.Decimal.Reading
import QuantumCircuit.Proofs.Decimal.Rounding
import QuantumCircuit.Proofs.Decimal.Shortest
import QuantumCircuit.Proofs.Decimal.Signs
import QuantumCircuit.Proofs.Decimal.Underflow
import QuantumCircuit.Proofs.Digits
import QuantumCircuit.Proofs.Expression.Build
import QuantumCircuit.Proofs.Expression.Substitution
import QuantumCircuit.Proofs.Expression.Zeros
import QuantumCircuit.Proofs.Graph.History
import QuantumCircuit.Proofs.Graph.Table
import QuantumCircuit.Proofs.Graph.View
import QuantumCircuit.Proofs.Json.Decoder
import QuantumCircuit.Proofs.Json.Numbers
import QuantumCircuit.Proofs.Json.Text
import QuantumCircuit.Proofs.Loops
import QuantumCircuit.Proofs.Operation.Adjoint
import QuantumCircuit.Proofs.Operation.Bits
import QuantumCircuit.Proofs.Operation.Blocks
import QuantumCircuit.Proofs.Operation.Instances
import QuantumCircuit.Proofs.Operation.Renaming
import QuantumCircuit.Proofs.Operation.Touched
import QuantumCircuit.Proofs.Operation.Variables
import QuantumCircuit.Proofs.Rationals
import QuantumCircuit.Proofs.Registers.Cover
import QuantumCircuit.Proofs.Registers.Disjoint
import QuantumCircuit.Proofs.Registers.Edits
import QuantumCircuit.Proofs.Registers.Joining
import QuantumCircuit.Proofs.Registers.Kin
import QuantumCircuit.Proofs.Registers.Labels
import QuantumCircuit.Proofs.Registers.Names
import QuantumCircuit.Proofs.Registers.Ranges
import QuantumCircuit.Proofs.Registers.Sizes
import QuantumCircuit.Proofs.Registers.Splitting
import QuantumCircuit.Proofs.Registers.Weight
import QuantumCircuit.Proofs.Reorder.Chains
import QuantumCircuit.Proofs.Reorder.Clbits
import QuantumCircuit.Proofs.Reorder.Slots
import QuantumCircuit.Proofs.Reorder.Swaps
import QuantumCircuit.Proofs.Reorder.Sweep
import QuantumCircuit.Proofs.SortedMap
import QuantumCircuit.Proofs.Tensor.Action
import QuantumCircuit.Proofs.Tensor.Adjoint
import QuantumCircuit.Proofs.Tensor.Advance
import QuantumCircuit.Proofs.Tensor.Axes
import QuantumCircuit.Proofs.Tensor.Bits
import QuantumCircuit.Proofs.Tensor.Completion
import QuantumCircuit.Proofs.Tensor.Contraction
import QuantumCircuit.Proofs.Tensor.Frame
import QuantumCircuit.Proofs.Tensor.Handed
import QuantumCircuit.Proofs.Tensor.Inverse
import QuantumCircuit.Proofs.Tensor.LegSums
import QuantumCircuit.Proofs.Tensor.Network
import QuantumCircuit.Proofs.Tensor.Placement
import QuantumCircuit.Proofs.Tensor.Reals
import QuantumCircuit.Proofs.Tensor.Record
import QuantumCircuit.Proofs.Tensor.Unitary
import QuantumCircuit.Proofs.Tensor.Wires
