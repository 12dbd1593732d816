import QuantumCircuit.Proofs.Tensor.Unitary

/-!
# Gates among many qubits

The matrix that the dense backend gives a gate can be described without the way in which it is put
together.  It is unitary, it leaves the states alone that violate a control, it changes no qubit
that is not a target, and on the targets it is the gate's own matrix, with the first target as the
most significant bit.
-/

namespace QuantumCircuit

open DenseOperator

namespace DenseOperator

theorem matrix?_of_le {S : Type} [Scalar S] {d : DenseOperator S} {n : Nat}
    (narrow : n ≤ d.numQubits) : d.matrix? n = some d.own :=
  if_pos narrow

/-- Asked for fewer qubits than it has, an operator answers as if it were asked for its own. -/
theorem matrix?_max {S : Type} [Scalar S] (d : DenseOperator S) (n : Nat) :
    d.matrix? (max n d.numQubits) = d.matrix? n := by
  rcases Nat.le_total n d.numQubits with narrow | wide
  · rw [Nat.max_eq_right narrow, matrix?_of_le (Nat.le_refl _), matrix?_of_le narrow]
  · rw [Nat.max_eq_left wide]

end DenseOperator

namespace Gate

variable {g : Gate ℝ}

/-! ## The description -/

/-- Whether a basis state satisfies the controls of a gate. -/
def Satisfied (g : Gate ℝ) (state : Nat) : Prop :=
  ∀ c ∈ g.controls.keys, state.testBit c.qubit = decide (c.polarity = .positive)

/-- Whether a number is made of the bits that a state has on the targets of a gate, the first target
being the most significant bit. -/
structure Reads (g : Gate ℝ) (state bits : Nat) : Prop where
  /-- There are no more bits than targets. -/
  bounded : bits < 2 ^ g.targets.length
  /-- Each target has its bit. -/
  bit : ∀ (j : Nat) (lt : j < g.targets.length),
    bits.testBit (g.targets.length - 1 - j) = state.testBit g.targets[j]

/-- Whether an operator on many qubits is that of a gate whose own matrix is given. -/
structure IsOperator (g : Gate ℝ) (own : Matrix (Complex ℝ)) {n : Nat} (u : QubitOperator n) :
    Prop where
  /-- The operator is unitary. -/
  unitary : u ∈ Matrix.unitaryGroup (Fin (2 ^ n)) ℂ
  /-- A state that violates a control is left alone. -/
  idle : ∀ row col : Fin (2 ^ n), ¬ g.Satisfied col → u row col = if row = col then 1 else 0
  /-- A qubit that is not a target is not changed. -/
  frame : ∀ (row col : Fin (2 ^ n)) (q : Nat), q ∉ g.targets →
    row.val.testBit q ≠ col.val.testBit q → u row col = 0
  /-- On the targets the gate's own matrix is applied. -/
  targets : ∀ row col : Fin (2 ^ n), g.Satisfied col →
    (∀ q, q ∉ g.targets → row.val.testBit q = col.val.testBit q) →
    ∃ r c, g.Reads row r ∧ g.Reads col c ∧ u row col = (own.entry r c).value

/-! ## The operator of the action -/

theorem satisfied_iff {state : Nat} : g.Satisfied state ↔ active g.controls.keys state = true :=
  active_iff.symm

theorem reads_gather (g : Gate ℝ) (state : Nat) : g.Reads state (gather g.targets state) where
  bounded := gather_lt g.targets state
  bit j lt := by
    have place : g.targets.length - 1 - (g.targets.length - 1 - j) = j := by omega
    have inside : g.targets.length - 1 - j < g.targets.length := by omega
    rw [testBit_gather, List.getElem?_reverse inside, place, List.getElem?_eq_getElem lt,
      Option.any_some]

/-- What a gate does to basis states is its operator. -/
theorem isOperator_actionOperator (proper : g.Proper) {n : Nat} (below : ∀ q ∈ g.operands, q < n)
    {own : Matrix (Complex ℝ)} (found : gateMatrix? g.kind g.params = some own) :
    g.IsOperator own (actionOperator n own g) where
  unitary := actionOperator_mem_unitaryGroup proper below found
  idle row col violated := by
    rw [satisfied_iff] at violated
    change (action own g.controls.keys g.targets row col).value = _
    rw [action, if_neg violated]
    simp only [Fin.ext_iff]
    split_ifs
    · exact Complex.value_one
    · exact Complex.value_zero
  frame row col q other differ := by
    change (action own g.controls.keys g.targets row col).value = _
    rw [action_eq_zero differ other, Complex.value_zero]
  targets row col satisfied agree := by
    refine ⟨_, _, g.reads_gather row, g.reads_gather col, ?_⟩
    change (action own g.controls.keys g.targets row col).value = _
    rw [action, if_pos (satisfied_iff.mp satisfied), if_pos (clear_eq_iff.mpr agree)]

/-! ## The operator that the backend builds -/

/-- The matrix of a gate over any number of qubits is the operator of the gate over these, or over
its own if it has more.  There is such a matrix exactly if it can be stored. -/
theorem dense_isOperator (proper : g.Proper) (n : Nat) :
    ∃ own, gateMatrix? g.kind g.params = some own ∧ own.rows = 2 ^ g.targets.length ∧
      (max n (Operation.standard g).width ≤ maxMatrixQubits ↔
        ∃ diagram m, (Backend.dense.build () (.standard g)).2 = .ok diagram ∧
          diagram.matrix? n = some m) ∧
      ∀ diagram m, (Backend.dense.build () (.standard g)).2 = .ok diagram →
        diagram.matrix? n = some m → ∃ u : QubitOperator (max n (Operation.standard g).width),
          m.operator? (max n (Operation.standard g).width) = some u ∧ g.IsOperator own u := by
  obtain ⟨own, found, size⟩ := exists_gateMatrix? proper.1 g.params
  have below : ∀ q ∈ g.operands, q < max n (Operation.standard g).width :=
    Operation.width_standard_le_iff.mp (Nat.le_max_right _ _)
  obtain ⟨stored, described⟩ := Tape.build_dense_spec proper found below
  have widened : ∀ diagram, (Backend.dense.build () (.standard g)).2 = .ok diagram →
      diagram.matrix? (max n (Operation.standard g).width) = diagram.matrix? n := by
    intro diagram answer
    rw [(matrix?_of_build proper.1 found answer).1]
    exact (ofGate own g).matrix?_max n
  refine ⟨own, found, size, ⟨fun small => ?_, ?_⟩, fun diagram m answer matrix => ?_⟩
  · obtain ⟨diagram, m, answer, matrix⟩ := stored small
    exact ⟨diagram, m, answer, (widened diagram answer).symm.trans matrix⟩
  · rintro ⟨diagram, m, answer, matrix⟩
    exact (matrix?_of_build proper.1 found answer).2 n m matrix
  · obtain ⟨rows, cols, entries⟩ :=
      described diagram m answer ((widened diagram answer).trans matrix)
    refine ⟨_, if_pos ⟨rows, cols⟩, ?_⟩
    simp only [entries]
    exact isOperator_actionOperator proper below found

/-- A gate on qubit 0 that is controlled by qubit 2. -/
def controlledX : Gate ℝ :=
  ⟨.x, SortedSet.ofList [⟨2, .positive⟩], [0], []⟩

/-- Over one qubit it still has a matrix on three, which is unitary. -/
theorem dense_isOperator_controlledX : controlledX.Proper ∧
    ∃ diagram m, (Backend.dense.build () (.standard controlledX)).2 = .ok diagram ∧
      diagram.matrix? 1 = some m ∧ ∃ u : QubitOperator 3,
        m.operator? 3 = some u ∧ u ∈ Matrix.unitaryGroup (Fin (2 ^ 3)) ℂ := by
  have proper : controlledX.Proper := by decide
  have width : max 1 (Operation.standard controlledX).width = 3 := by decide
  obtain ⟨own, -, -, stored, described⟩ := dense_isOperator proper 1
  rw [width] at stored described
  obtain ⟨diagram, m, answer, matrix⟩ := stored.mp (by decide)
  obtain ⟨u, operator, spec⟩ := described diagram m answer matrix
  exact ⟨proper, diagram, m, answer, matrix, u, operator, spec.unitary⟩

end Gate

end QuantumCircuit
