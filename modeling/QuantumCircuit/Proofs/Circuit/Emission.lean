import Mathlib.Tactic.SplitIfs
import QuantumCircuit.Circuit.Gates

/-!
# Taking operations in after checks

Gates, conditioned gates, measurements, resets and barriers are checked against the size of the
circuit, and then appended as one operation.  An `Emission` is such a call, whichever it is.
-/

namespace QuantumCircuit

/-- A call that checks an operation and appends it, with its arguments. -/
inductive Emission (S : Type) where
  /-- `emit`. -/
  | gate (kind : OpKind) (params : List (Parameter S)) (controls : Controls) (targets : List Nat)
  /-- `apply`, for any named gate. -/
  | named (shorthand : Shorthand) (params : List (Parameter S)) (controls : List Control)
      (qubits : List Nat)
  /-- `emitConditioned`. -/
  | conditioned (kind : OpKind) (target : Nat) (controls : Controls) (condition : Condition)
      (params : List S)
  /-- `measureQubits`, and `measure` for one qubit. -/
  | measure (qubits bits : List Nat)
  /-- `resetQubits`, and `reset` for one qubit. -/
  | reset (qubits : List Nat)
  /-- `barrierOn`. -/
  | barrierOn (qubits : List Nat)
  /-- `barrier`. -/
  | barrier

variable {S : Type} [Scalar S]

/-- The outcome of an emission. -/
def Emission.run (c : Circuit S) : Emission S → Outcome S Unit
  | .gate kind params controls targets => c.emit kind params controls targets
  | .named shorthand params controls qubits => c.apply shorthand params controls qubits
  | .conditioned kind target controls condition params =>
    c.emitConditioned kind target controls condition params
  | .measure qubits bits => c.measureQubits qubits bits
  | .reset qubits => c.resetQubits qubits
  | .barrierOn qubits => c.barrierOn qubits
  | .barrier => c.barrier

namespace Circuit

/-! ## Checks that pass -/

/-- A gate that passes the check has as many targets and parameters as its kind. -/
theorem arityError?_eq_none_iff {kind : OpKind} {targets params : Nat} :
    arityError? kind targets params = none ↔
      kind.targetCount? = some targets ∧ params = kind.paramCount := by
  rw [arityError?]
  cases kind.targetCount? with
  | none => simp
  | some expected =>
      dsimp only
      split_ifs with targets params
      · simp [Ne.symm targets]
      · simp [params]
      · simp_all

omit [Scalar S] in
theorem qubitError?_eq_none_iff {c : Circuit S} {gate : String} {qubits : List Nat} :
    c.qubitError? gate qubits = none ↔ ∀ q ∈ qubits, q < c.numTotalQubits := by
  rw [qubitError?, Option.map_eq_none_iff, List.find?_eq_none]
  simp

omit [Scalar S] in
theorem clbitError?_eq_none_iff {c : Circuit S} {gate : String} {bits : List Nat} :
    c.clbitError? gate bits = none ↔ ∀ b ∈ bits, b < c.numClbits := by
  rw [clbitError?, Option.map_eq_none_iff, List.find?_eq_none]
  simp

/-- A qubit in range is measured into a bit in range. -/
theorem measure_of_lt (c : Circuit S) {qubit bit : Nat} (qubitLt : qubit < c.numTotalQubits)
    (bitLt : bit < c.numClbits) :
    c.measure qubit bit = (c.push (.nonUnitary (.ofMeasure [qubit] [bit]))).done () := by
  have qubits : c.qubitError? "measure" [qubit] = none :=
    qubitError?_eq_none_iff.mpr (by simpa using qubitLt)
  have bits : c.clbitError? "measure" [bit] = none :=
    clbitError?_eq_none_iff.mpr (by simpa using bitLt)
  rw [measure, measureQubits, qubits, bits]
  rfl

/-- A barrier over the qubits that are not ancillary is never refused. -/
theorem barrier_eq_push (c : Circuit S) :
    c.barrier =
      (c.push (.standard ⟨.barrier, .empty, List.range c.numQubits, []⟩)).done () := by
  have qubits : c.qubitError? "barrier" (List.range c.numQubits) = none :=
    qubitError?_eq_none_iff.mpr fun q member =>
      Nat.lt_of_lt_of_le (List.mem_range.mp member) (Nat.le_add_right _ _)
  rw [barrier, barrierOn, qubits]
  rfl

end Circuit

end QuantumCircuit
