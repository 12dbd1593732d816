import Mathlib.LinearAlgebra.Matrix.ConjTranspose
import QuantumCircuit.Proofs.Operation.Adjoint
import QuantumCircuit.Proofs.Tensor.Adjoint
import QuantumCircuit.Proofs.Tensor.Network

/-!
# Inverting is taking the adjoint

Over the real numbers the backend that builds dense matrices gives every gate an operator on the
states of a number of qubits, and the operator of an operation is the product of those of its gates.
Inverting an operation inverts its gates one by one and reverses their order.  The operator of the
adjoint of a gate is the conjugate transpose, so the same holds for operations, however deep their
blocks are nested.
-/

/-- An operator on the states of a number of qubits. -/
abbrev QubitOperator (numQubits : Nat) : Type :=
  Matrix (Fin (2 ^ numQubits)) (Fin (2 ^ numQubits)) ℂ

namespace QuantumCircuit

open DenseOperator GateMatrix

variable {g : Gate ℝ} {n : Nat}

namespace Gate

/-! ## Adjoint gates -/

theorem targetCount?_inverse (kind : OpKind) : kind.inverse.targetCount? = kind.targetCount? := by
  cases kind <;> rfl

theorem paramCount_inverse (kind : OpKind) : kind.inverse.paramCount = kind.paramCount := by
  cases kind <;> rfl

theorem length_invertParams (kind : OpKind) (params : List ℝ) :
    (invertParams kind params).length = params.length := by
  unfold invertParams
  split <;> rfl

theorem invertTargets_eq {kind : OpKind} (other : kind ≠ .dcx) (targets : List Nat) :
    invertTargets kind targets = targets := by
  unfold invertTargets
  split
  · contradiction
  · rfl

theorem operands_invert_perm (g : Gate ℝ) : g.invert.operands.Perm g.operands :=
  (invertTargets_perm g.kind g.targets).append_left _

theorem Proper.invert (proper : g.Proper) : g.invert.Proper := by
  constructor
  · change g.kind.inverse.targetCount? = some (invertTargets g.kind g.targets).length
    rw [targetCount?_inverse, (invertTargets_perm g.kind g.targets).length_eq]
    exact proper.1
  · exact (operands_invert_perm g).nodup_iff.mpr proper.2

/-- Whatever its targets read off a row and a column, the matrix of the adjoint gate has the
conjugate of the entry of the gate's own in the column and the row. -/
theorem exists_adjoint (proper : g.Proper) (count : g.params.length = g.kind.paramCount) :
    ∃ unitary adjoint : Matrix (Complex ℝ), gateMatrix? g.kind g.params = some unitary ∧
      gateMatrix? g.invert.kind g.invert.params = some adjoint ∧
      ∀ row col,
        adjoint.entry (gather g.invert.targets row) (gather g.invert.targets col) =
          (unitary.entry (gather g.targets col) (gather g.targets row)).conj := by
  rcases g with ⟨kind, controls, targets, params⟩
  -- Only the adjoint of this kind exchanges its targets, and its own matrix is not self-adjoint.
  by_cases exchanged : kind = .dcx
  · subst exchanged
    have two : targets.length = 2 := (Option.some.inj proper.1).symm
    rcases List.length_eq_two.mp two with ⟨a, b, rfl⟩
    refine ⟨_, _, rfl, rfl, fun row col => ?_⟩
    rcases rows?_dcx_exchanged a b row col params params with ⟨rows, rows', found, found', entries⟩
    obtain rfl := Option.some.inj found
    obtain rfl := Option.some.inj found'
    exact entries
  · rcases exists_gateMatrix? proper.1 params with ⟨unitary, found, size⟩
    rcases Option.map_eq_some_iff.mp found with ⟨rows, foundRows, rfl⟩
    have inverse := rows?_inverse count exchanged
    rw [foundRows] at inverse
    have inside : ∀ state, gather targets state < rows.length := by
      intro state
      change gather targets state < (Matrix.ofRows rows).rows
      rw [size]
      exact gather_lt targets state
    refine ⟨_, Matrix.ofRows (adjointRows rows), found, ?_, fun row col => ?_⟩
    · exact congrArg (Option.map Matrix.ofRows) inverse
    · change (Matrix.ofRows (adjointRows rows)).entry (gather (invertTargets kind targets) row)
        (gather (invertTargets kind targets) col) = _
      rw [invertTargets_eq exchanged]
      exact entry_adjointRows (inside row) (inside col)

end Gate

namespace DenseOperator

/-- The action of the adjoint is the conjugate transpose of the action, if the own matrices are
conjugate transposes of each other and no target is a control. -/
theorem action_conj {unitary adjoint : Matrix (Complex ℝ)} {controls : List Control}
    {targets targets' : List Nat} (perm : targets'.Perm targets)
    (apart : ∀ c ∈ controls, c.qubit ∉ targets)
    (entries : ∀ row col, adjoint.entry (gather targets' row) (gather targets' col) =
      (unitary.entry (gather targets col) (gather targets row)).conj) (row col : Nat) :
    action adjoint controls targets' row col = (action unitary controls targets col row).conj := by
  have cleared : clear targets' row = clear targets' col ↔
      clear targets col = clear targets row := by
    rw [clear_eq_iff, clear_eq_iff]
    simp only [perm.mem_iff, eq_comm]
  rw [action, action]
  by_cases others : clear targets col = clear targets row
  · have activity : active controls row = active controls col :=
      (active_congr fun c mem => clear_eq_iff.mp others c.qubit (apart c mem)).symm
    rw [if_pos others, if_pos (cleared.mpr others), activity, entries]
    split
    · rfl
    · by_cases same : row = col
      · rw [if_pos same, if_pos same.symm, Complex.conj_one]
      · rw [if_neg same, if_neg (Ne.symm same), Complex.conj_zero]
  · have differ : col ≠ row := by
      rintro rfl
      exact others rfl
    rw [if_neg others, if_neg fun same => others (cleared.mp same), if_neg differ,
      if_neg differ.symm, ite_self, ite_self, Complex.conj_zero]

end DenseOperator

/-! ## Operators of gates -/

/-- The operator with the entries of a matrix, if the matrix has the size for it. -/
def Matrix.operator? (m : Matrix (Complex ℝ)) (n : Nat) : Option (QubitOperator n) :=
  if m.rows = numStates n ∧ m.cols = numStates n then
    some (Matrix.of fun row col => (m.entry row col).value)
  else none

/-- Whether a gate has the targets and angles of its kind, and distinct qubits below a bound. -/
structure Gate.Placed {P : Type} (g : Gate P) (n : Nat) : Prop where
  /-- It has as many targets as its kind, and no qubit serves twice. -/
  proper : g.Proper
  /-- It has as many angles as its kind. -/
  count : g.params.length = g.kind.paramCount
  /-- There is room for its qubits. -/
  below : ∀ q ∈ g.operands, q < n

namespace Gate

/-- The operator that the backend gives a gate, if its matrix can be stored. -/
noncomputable def operator? (n : Nat) (g : Gate ℝ) : Option (QubitOperator n) :=
  match (Backend.dense.build () (.standard g)).2 with
  | .ok diagram => (diagram.matrix? n).bind fun m => m.operator? n
  | .error _ => none

/-- The operator with the entries that describe what a gate does to basis states. -/
noncomputable def actionOperator (n : Nat) (unitary : Matrix (Complex ℝ)) (g : Gate ℝ) :
    QubitOperator n :=
  Matrix.of fun row col => (action unitary g.controls.keys g.targets row col).value

/-- A gate has an operator if the matrix over the qubits can be stored, and its entries are those of
the action. -/
theorem operator?_eq (placed : g.Placed n) {unitary : Matrix (Complex ℝ)}
    (found : gateMatrix? g.kind g.params = some unitary) :
    g.operator? n = if n ≤ maxMatrixQubits then some (actionOperator n unitary g) else none := by
  have spec := Tape.build_dense_spec placed.proper found placed.below
  by_cases stored : n ≤ maxMatrixQubits
  · rcases spec.1 stored with ⟨diagram, m, built, matrix⟩
    rcases spec.2 diagram m built matrix with ⟨rows, cols, entries⟩
    simp only [operator?, built, matrix, Option.bind_some, Matrix.operator?, rows, cols, entries,
      and_self, if_true, if_pos stored, actionOperator]
  · rw [if_neg stored, operator?]
    cases built : (Backend.dense.build () (.standard g)).2 with
    | error e => rfl
    | ok diagram =>
        cases matrix : diagram.matrix? n with
        | none => simp only [matrix, Option.bind_none]
        | some m =>
            have limit := (matrix?_of_build placed.proper.1 found built).2 n m matrix
            exact absurd ((Nat.le_max_left _ _).trans limit) stored

theorem Placed.invert (placed : g.Placed n) : g.invert.Placed n where
  proper := placed.proper.invert
  count := by
    change (invertParams g.kind g.params).length = g.kind.inverse.paramCount
    rw [length_invertParams, paramCount_inverse]
    exact placed.count
  below q mem := placed.below q ((operands_invert_perm g).mem_iff.mp mem)

/-- What the adjoint of a gate does to basis states is the conjugate transpose of what the gate
does. -/
theorem exists_actionOperator_adjoint (placed : g.Placed n) :
    ∃ unitary adjoint : Matrix (Complex ℝ), gateMatrix? g.kind g.params = some unitary ∧
      gateMatrix? g.invert.kind g.invert.params = some adjoint ∧
      actionOperator n adjoint g.invert = (actionOperator n unitary g).conjTranspose := by
  rcases exists_adjoint placed.proper placed.count with ⟨unitary, adjoint, found, found', entries⟩
  refine ⟨unitary, adjoint, found, found', ?_⟩
  ext row col
  have apart : ∀ c ∈ g.controls.keys, c.qubit ∉ g.targets := by
    intro c mem target
    exact (List.nodup_append.mp placed.proper.2).2.2 _ (List.mem_map_of_mem mem) _ target rfl
  exact congrArg Complex.value
    (action_conj (invertTargets_perm g.kind g.targets) apart entries row col)

/-- The operator of the adjoint of a gate is the conjugate transpose of that of the gate. -/
theorem operator?_adjoint (placed : g.Placed n) :
    g.invert.operator? n = (g.operator? n).map Matrix.conjTranspose := by
  rcases exists_actionOperator_adjoint placed with ⟨unitary, adjoint, found, found', transposed⟩
  rw [operator?_eq placed found, operator?_eq placed.invert found']
  split
  · exact congrArg some transposed
  · rfl

end Gate

/-! ## Operators of operations -/

namespace Operation

variable {S : Type}

mutual

/-- Whether an operation is a gate with a property, or a block of such operations. -/
def EachGate (holds : Gate S → Prop) : Operation S → Prop
  | .standard g => holds g
  | .symbolic _ => False
  | .nonUnitary _ => False
  | .conditioned _ _ => False
  | .compound ops => AllEachGate holds ops
termination_by structural op => op

/-- Whether all operations of a list consist of gates with a property. -/
def AllEachGate (holds : Gate S → Prop) : List (Operation S) → Prop
  | [] => True
  | op :: ops => op.EachGate holds ∧ AllEachGate holds ops
termination_by structural ops => ops

end

mutual

theorem holds_of_mem_leafGates {holds : Gate S → Prop} {g : Gate S} :
    ∀ {op : Operation S}, op.EachGate holds → g ∈ op.leafGates → holds g
  | .standard h, each, mem => by
      rw [leafGates] at mem
      split at mem
      · contradiction
      · rw [List.mem_singleton.mp mem]
        exact each
  | .compound _, each, mem => holds_of_mem_leafGatesAll each mem

theorem holds_of_mem_leafGatesAll {holds : Gate S → Prop} {g : Gate S} :
    ∀ {ops : List (Operation S)}, AllEachGate holds ops → g ∈ leafGatesAll ops → holds g
  | _ :: _, each, mem =>
      (List.mem_append.mp mem).elim (holds_of_mem_leafGates each.1)
        (holds_of_mem_leafGatesAll each.2)

end

theorem leafGatesAll_append (first second : List (Operation S)) :
    leafGatesAll (first ++ second) = leafGatesAll first ++ leafGatesAll second := by
  induction first with
  | nil => rfl
  | cons op first ih => rw [List.cons_append, leafGatesAll, leafGatesAll, ih, List.append_assoc]

variable [Scalar S]

mutual

/-- The gates of the adjoint of an operation are the adjoints of its gates, in reverse order. -/
theorem leafGates_invert : ∀ op : Operation S,
    op.invert.leafGates = (op.leafGates.map Gate.invert).reverse
  | .standard g => by
      have kind : g.invert.kind = .barrier ↔ g.kind = .barrier := Gate.inverse_eq_barrier_iff
      rw [invert, leafGates, leafGates]
      by_cases barrier : g.kind = .barrier
      · rw [if_pos barrier, if_pos (kind.mpr barrier)]
        rfl
      · rw [if_neg barrier, if_neg (mt kind.mp barrier)]
        rfl
  | .symbolic _ => rfl
  | .nonUnitary _ => rfl
  | .conditioned _ _ => rfl
  | .compound ops => leafGatesAll_invertEach ops

theorem leafGatesAll_invertEach : ∀ ops : List (Operation S),
    leafGatesAll (invertEach ops).reverse = ((leafGatesAll ops).map Gate.invert).reverse
  | [] => rfl
  | op :: ops => by
      rw [invertEach, List.reverse_cons, leafGatesAll_append, leafGatesAll_invertEach ops,
        leafGatesAll, leafGatesAll, List.append_nil, leafGates_invert op, leafGatesAll,
        List.map_append, List.reverse_append]

end

/-- The operators of the gates of an operation in program order, if all of them can be stored. -/
noncomputable def operators? (n : Nat) (op : Operation ℝ) : Option (List (QubitOperator n)) :=
  op.leafGates.mapM (Gate.operator? n)

/-- The operator of an operation: its gates act one after the other, so the first one comes last in
the product. -/
noncomputable def operator? (n : Nat) (op : Operation ℝ) : Option (QubitOperator n) :=
  (op.operators? n).map fun us => us.reverse.prod

/-- If each item has a result with a property, the list has results that all have it. -/
theorem exists_mapM_forall {α β : Type} {f : α → Option β} {holds : β → Prop} {l : List α}
    (each : ∀ a ∈ l, ∃ b, holds b ∧ f a = some b) :
    ∃ bs, (∀ b ∈ bs, holds b) ∧ l.mapM f = some bs := by
  induction l with
  | nil => exact ⟨[], fun b member => absurd member List.not_mem_nil, rfl⟩
  | cons a l ih =>
      rcases each a List.mem_cons_self with ⟨b, first, found⟩
      rcases ih fun a' mem => each a' (List.mem_cons_of_mem a mem) with ⟨bs, later, rest⟩
      exact ⟨b :: bs, List.forall_mem_cons.mpr ⟨first, later⟩,
        by rw [List.mapM_cons, found, rest]; rfl⟩

theorem exists_mapM {α β : Type} {f : α → Option β} {l : List α}
    (each : ∀ a ∈ l, ∃ b, f a = some b) : ∃ bs, l.mapM f = some bs := by
  have trivially : ∀ a ∈ l, ∃ b, True ∧ f a = some b := by simpa using each
  rcases exists_mapM_forall trivially with ⟨bs, -, found⟩
  exact ⟨bs, found⟩

/-- Computing item by item commutes with a change of the items that changes the results, and with
reversing the list. -/
theorem mapM_reverse_of_map {α β : Type} {f : α → Option β} {change : α → α} {result : β → β}
    {l : List α} (each : ∀ a ∈ l, f (change a) = (f a).map result) :
    (l.map change).reverse.mapM f = (l.mapM f).map fun bs => (bs.map result).reverse := by
  induction l with
  | nil => rfl
  | cons a l ih =>
      have rest := ih fun b mem => each b (List.mem_cons_of_mem a mem)
      rw [List.map_cons, List.reverse_cons, List.mapM_append, rest, List.mapM_cons, List.mapM_cons,
        each a List.mem_cons_self]
      cases f a <;> cases l.mapM f <;> simp

/-- Inverting an operation replaces its operator by the conjugate transpose. -/
theorem invert_conjTranspose {op : Operation ℝ} (placed : op.EachGate fun g => g.Placed n) :
    (n ≤ maxMatrixQubits → ∃ us, op.operators? n = some us) ∧
    op.invert.operators? n =
      (op.operators? n).map (fun us => (us.map Matrix.conjTranspose).reverse) ∧
    op.invert.operator? n = (op.operator? n).map Matrix.conjTranspose := by
  have each : op.invert.operators? n =
      (op.operators? n).map (fun us => (us.map Matrix.conjTranspose).reverse) := by
    rw [operators?, leafGates_invert]
    exact mapM_reverse_of_map fun g mem =>
      Gate.operator?_adjoint (holds_of_mem_leafGates placed mem)
  refine ⟨fun stored => exists_mapM fun g mem => ?_, each, ?_⟩
  · have placed := holds_of_mem_leafGates placed mem
    rcases exists_gateMatrix? placed.proper.1 g.params with ⟨unitary, found, _⟩
    rw [Gate.operator?_eq placed found, if_pos stored]
    exact ⟨_, rfl⟩
  · have product : ∀ us : List (QubitOperator n),
        ((us.map Matrix.conjTranspose).reverse).reverse.prod = us.reverse.prod.conjTranspose := by
      intro us
      rw [List.reverse_reverse, Matrix.conjTranspose_list_prod, List.map_reverse,
        List.reverse_reverse]
    rw [operator?, operator?, each, Option.map_map, Option.map_map]
    exact congrArg (Option.map · (op.operators? n)) (funext product)

/-- A controlled gate with two angles, and in a nested block two controlled X gates in opposite
directions and a gate without an angle. -/
theorem invert_conjTranspose_nested :
    let controlled : Gate ℝ := ⟨.u2, .ofList [⟨2, .negative⟩], [0], [1, 2]⟩
    let double : Gate ℝ := ⟨.dcx, .empty, [0, 1], []⟩
    let single : Gate ℝ := ⟨.t, .empty, [2], []⟩
    let op : Operation ℝ :=
      .compound [.standard controlled, .compound [.standard double, .standard single]]
    ∃ u, op.operator? 3 = some u ∧ op.invert.operator? 3 = some u.conjTranspose := by
  intro controlled double single op
  have placed : op.EachGate fun g => g.Placed 3 :=
    ⟨⟨by decide, rfl, by decide⟩,
      ⟨⟨by decide, rfl, by decide⟩, ⟨by decide, rfl, by decide⟩, trivial⟩, trivial⟩
  obtain ⟨stored, _, inverse⟩ := invert_conjTranspose placed
  rcases stored (by decide) with ⟨us, found⟩
  have whole : op.operator? 3 = some us.reverse.prod := by rw [operator?, found, Option.map_some]
  exact ⟨us.reverse.prod, whole, by rw [inverse, whole, Option.map_some]⟩

end Operation

end QuantumCircuit
