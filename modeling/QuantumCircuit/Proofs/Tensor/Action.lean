import Mathlib.Tactic.SplitIfs
import QuantumCircuit.Proofs.Operation.Blocks
import QuantumCircuit.Proofs.Operation.Renaming
import QuantumCircuit.Proofs.Tensor.Bits

/-!
# What a gate does to basis states

`action` describes a gate by bits alone.  Where the controls are satisfied, the targets of the row
and the column select an entry of the gate's own matrix, and all other qubits have to agree.  It
does not mention how many qubits there are, and the matrix of a dense operator over any number of
qubits that can be stored has these entries.
-/

namespace QuantumCircuit

/-! ## The matrix of a kind -/

/-- A kind with a number of targets has a matrix of that size. -/
theorem exists_gateMatrix? {S : Type} [TrigScalar S] {kind : OpKind} {count : Nat}
    (arity : kind.targetCount? = some count) (params : List S) :
    ∃ unitary, gateMatrix? kind params = some unitary ∧ unitary.rows = numStates count := by
  cases kind <;> cases arity <;> exact ⟨_, rfl, rfl⟩

/-! ## The width of a gate -/

/-- A gate is as wide as it takes to have its controls and targets below the width. -/
theorem Operation.width_standard_le_iff {S : Type} {g : Gate S} {n : Nat} :
    (Operation.standard g).width ≤ n ↔ ∀ q ∈ g.operands, q < n := by
  have operands : ∀ q, q ∈ (Operation.standard g).usedQubits.keys ↔ q ∈ g.operands := fun q =>
    SortedSet.mem_keys_ofList
  simp only [← operands]
  exact width_le_iff

namespace DenseOperator

/-! ## The action of a gate -/

theorem active_iff {controls : List Control} {state : Nat} : active controls state = true ↔
    ∀ c ∈ controls, state.testBit c.qubit = decide (c.polarity = .positive) := by
  simp only [active, List.all_eq_true, beq_iff_eq]

theorem active_congr {controls : List Control} {state state' : Nat}
    (agree : ∀ c ∈ controls, state.testBit c.qubit = state'.testBit c.qubit) :
    active controls state = active controls state' := by
  rw [Bool.eq_iff_iff, active_iff, active_iff]
  apply forall₂_congr
  intro c mem
  rw [agree c mem]

section Action

variable {S : Type} [Scalar S]

/-- The entry of a gate with a given own matrix, in a row and a column over any number of
qubits. -/
def action (unitary : Matrix (Complex S)) (controls : List Control) (targets : List Nat)
    (row col : Nat) : Complex S :=
  if active controls col then
    if clear targets row = clear targets col then
      unitary.entry (gather targets row) (gather targets col)
    else .zero
  else if row = col then .one
  else .zero

/-- Only equal bits outside of the qubits of a gate lead to an entry other than zero. -/
theorem action_eq_zero {controls : List Control} {targets : List Nat} {row col q : Nat}
    (differ : row.testBit q ≠ col.testBit q) (other : q ∉ targets)
    (unitary : Matrix (Complex S)) : action unitary controls targets row col = .zero := by
  have notCleared : clear targets row ≠ clear targets col := fun cleared =>
    differ (clear_eq_iff.mp cleared q other)
  have notSame : row ≠ col := by
    rintro rfl
    exact differ rfl
  rw [action, if_neg notCleared, if_neg notSame, ite_self]

/-- A gate acts alike on two pairs of states if they show the same on its qubits, and if they agree
or disagree on all others alike. -/
theorem action_congr {controls controls' : List Control} {targets targets' : List Nat}
    {row col row' col' : Nat} (unitary : Matrix (Complex S))
    (sameControls : active controls col = active controls' col')
    (sameRow : gather targets row = gather targets' row')
    (sameCol : gather targets col = gather targets' col')
    (sameCleared : clear targets row = clear targets col ↔
      clear targets' row' = clear targets' col') :
    action unitary controls targets row col = action unitary controls' targets' row' col' := by
  have sameStates : row = col ↔ row' = col' := by
    rw [eq_iff_clear_gather targets, sameCleared, sameRow, sameCol,
      ← eq_iff_clear_gather targets']
  rw [action, action, sameControls, sameRow, sameCol]
  simp only [sameCleared, sameStates]

/-- The entries of a dense operator over distinct targets. -/
theorem entry_eq_action (unitary : Matrix (Complex S)) (controls : List Control)
    {targets : List Nat} (distinct : targets.Nodup) (row col : Nat) :
    entry unitary controls targets row col = action unitary controls targets row col := by
  rw [entry, action, find?_scatter distinct]
  split_ifs <;> rfl

/-- The action over many qubits is that over the lower ones, with the identity on the others. -/
theorem action_eq_block {controls : List Control} {targets : List Nat} {width : Nat}
    (controlsBelow : ∀ c ∈ controls, c.qubit < width) (targetsBelow : ∀ q ∈ targets, q < width)
    (unitary : Matrix (Complex S)) (row col : Nat) :
    action unitary controls targets row col =
      if row / 2 ^ width = col / 2 ^ width then
        action unitary controls targets (row % 2 ^ width) (col % 2 ^ width)
      else .zero := by
  have low : ∀ {q}, q < width → ∀ state : Nat,
      state.testBit q = (state % 2 ^ width).testBit q := by
    intro q below state
    rw [Nat.testBit_mod_two_pow, decide_eq_true below, Bool.true_and]
  by_cases upper : row / 2 ^ width = col / 2 ^ width
  · have high : ∀ {q}, ¬ q < width → row.testBit q = col.testBit q := by
      intro q above
      have bits := congrArg (fun state => state.testBit (q - width)) upper
      have position : q - width + width = q := by omega
      simpa [Nat.testBit_div_two_pow, position] using bits
    rw [if_pos upper]
    refine action_congr unitary (active_congr fun c mem => low (controlsBelow c mem) col)
      (gather_eq_iff.mpr fun q mem => low (targetsBelow q mem) row)
      (gather_eq_iff.mpr fun q mem => low (targetsBelow q mem) col) ?_
    rw [clear_eq_iff, clear_eq_iff]
    apply forall₂_congr
    intro q _
    by_cases below : q < width
    · rw [low below row, low below col]
    · simp [Nat.testBit_mod_two_pow, below, high below]
  · obtain ⟨i, differ⟩ : ∃ i, (row / 2 ^ width).testBit i ≠ (col / 2 ^ width).testBit i := by
      by_contra same
      exact upper (Nat.eq_of_testBit_eq fun i => not_not.mp (not_exists.mp same i))
    rw [Nat.testBit_div_two_pow, Nat.testBit_div_two_pow] at differ
    have other : i + width ∉ targets := fun mem => absurd (targetsBelow _ mem) (by omega)
    rw [if_neg upper, action_eq_zero differ other]

/-- Over more qubits than it has of its own, an operator has a matrix exactly if that can be
stored. -/
theorem isSome_matrix?_iff {d : DenseOperator S} {n : Nat} :
    (d.matrix? n).isSome = true ↔ n ≤ d.numQubits ∨ n ≤ maxMatrixQubits := by
  rw [matrix?]
  split_ifs with narrow stored <;> simp [*]

/-- The matrix of the operator of a gate over any number of qubits that has room for the gate and
can be stored. -/
theorem exists_matrix? (unitary : Matrix (Complex S)) {g : Gate S} (distinct : g.targets.Nodup)
    {n : Nat} (below : ∀ q ∈ g.operands, q < n) (stored : n ≤ maxMatrixQubits) :
    ∃ m, (ofGate unitary g).matrix? n = some m ∧ m.rows = numStates n ∧ m.cols = numStates n ∧
      ∀ row col, m.entry row col = action unitary g.controls.keys g.targets row col := by
  have fits : (Operation.standard g).width ≤ n := Operation.width_standard_le_iff.mpr below
  have within := Operation.width_standard_le_iff.mp (Nat.le_refl (Operation.standard g).width)
  have own : ∀ row col, (ofGate unitary g).own.entry row col =
      action unitary g.controls.keys g.targets row col :=
    entry_eq_action unitary g.controls.keys distinct
  rw [matrix?]
  by_cases narrow : n ≤ (ofGate unitary g).numQubits
  · rw [if_pos narrow]
    have equal : (Operation.standard g).width = n := Nat.le_antisymm fits narrow
    exact ⟨_, rfl, congrArg numStates equal, congrArg numStates equal, own⟩
  · have size : numStates (Operation.standard g).width *
        numStates (n - (Operation.standard g).width) = numStates n := by
      change 2 ^ _ * 2 ^ _ = 2 ^ n
      rw [← Nat.pow_add, Nat.add_sub_cancel' fits]
    rw [if_neg narrow, if_pos stored]
    refine ⟨_, rfl, size, size, fun row col => ?_⟩
    rw [action_eq_block (fun c mem => within _ (Gate.qubit_mem_operands mem))
      (fun q mem => within q (Gate.target_mem_operands mem)), ← own]
    rfl

end Action

end DenseOperator

/-! ## Building operators -/

/-- A gate with as many targets as its kind has is built if its matrix can be stored. -/
theorem exists_build {S : Type} [TrigScalar S] {g : Gate S}
    (arity : g.kind.targetCount? = some g.targets.length) :
    ∃ unitary, gateMatrix? g.kind g.params = some unitary ∧
      (Backend.dense.build () (.standard g)).2 =
        if (Operation.standard g).width ≤ maxMatrixQubits then
          .ok ⟨(DenseOperator.ofGate unitary g).matrix?⟩
        else .error .fault := by
  rcases exists_gateMatrix? arity g.params with ⟨unitary, found, size⟩
  have covers : DenseOperator.overruns unitary g = false := by
    rw [DenseOperator.overruns, size, decide_eq_false (Nat.lt_irrefl _), Bool.false_and]
  have operator : denseOperator (.standard g) = storedOperator unitary g := by
    rw [denseOperator, gateMatrix, found]
    rfl
  refine ⟨unitary, found, ?_⟩
  change (denseOperator (.standard g)).map _ = _
  rw [operator, storedOperator, covers, if_neg Bool.false_ne_true]
  by_cases small : (Operation.standard g).width ≤ maxMatrixQubits
  · rw [if_pos small, if_neg (Nat.not_lt.mpr small)]
    rfl
  · rw [if_neg small, if_pos (Nat.lt_of_not_le small)]
    rfl

/-- What is built for a gate has the gate's matrices, and only such that can be stored. -/
theorem matrix?_of_build {S : Type} [TrigScalar S] {g : Gate S}
    (arity : g.kind.targetCount? = some g.targets.length) {unitary : Matrix (Complex S)}
    (found : gateMatrix? g.kind g.params = some unitary) {diagram : Diagram S}
    (built : (Backend.dense.build () (.standard g)).2 = .ok diagram) :
    diagram.matrix? = (DenseOperator.ofGate unitary g).matrix? ∧
      ∀ n m, diagram.matrix? n = some m →
        max n (Operation.standard g).width ≤ maxMatrixQubits := by
  rcases exists_build arity with ⟨unitary', found', spec⟩
  obtain rfl : unitary = unitary' := Option.some.inj (found.symm.trans found')
  rw [spec] at built
  split at built
  · next small =>
      obtain rfl := Except.ok.inj built
      refine ⟨rfl, fun n m matrix => ?_⟩
      rcases DenseOperator.isSome_matrix?_iff.mp (Option.isSome_of_eq_some matrix) with
        narrow | stored
      · exact Nat.max_le.mpr ⟨Nat.le_trans narrow small, small⟩
      · exact Nat.max_le.mpr ⟨stored, small⟩
  · contradiction

end QuantumCircuit
