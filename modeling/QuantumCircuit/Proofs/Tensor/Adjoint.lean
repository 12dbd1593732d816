import QuantumCircuit.Operation.Inverse
import QuantumCircuit.Proofs.Tensor.Reals
import QuantumCircuit.Tensor.Dense

/-!
# The matrices of adjoint gates

Over the real numbers the matrix of the adjoint of a gate is the conjugate transpose of the gate's
own, kind by kind.  The one exception are two controlled X gates in opposite directions: there the
kind and the matrix stay as they are, and it is the targets that change places, which exchanges two
of the four states of the targets.
-/

namespace QuantumCircuit

open DenseOperator TrigScalar

namespace GateMatrix

/-! ## Conjugate transposes -/

/-- The rows of the conjugate transpose. -/
noncomputable def adjointRows (rows : List (List (Complex ℝ))) : List (List (Complex ℝ)) :=
  (List.range rows.length).map fun c => rows.map fun row => (row.getD c .zero).conj

theorem entry_adjointRows {rows : List (List (Complex ℝ))} {r c : Nat} (below : r < rows.length)
    (below' : c < rows.length) : (Matrix.ofRows (adjointRows rows)).entry r c =
      ((Matrix.ofRows rows).entry c r).conj := by
  change ((adjointRows rows).getD r []).getD c .zero =
    (((rows.getD c []).getD r Complex.zero)).conj
  have row : (adjointRows rows).getD r [] = rows.map fun row => (row.getD r .zero).conj := by
    rw [adjointRows, List.getD_eq_getElem?_getD, List.getElem?_map, List.getElem?_range below]
    rfl
  have column : rows.getD c [] = rows[c] := by
    rw [List.getD_eq_getElem?_getD, List.getElem?_eq_getElem below', Option.getD_some]
  rw [row, column, List.getD_eq_getElem?_getD, List.getElem?_map, List.getElem?_eq_getElem below']
  rfl

@[simp]
theorem adjointRows_two (a b c d : Complex ℝ) :
    adjointRows [[a, b], [c, d]] = [[a.conj, c.conj], [b.conj, d.conj]] :=
  rfl

@[simp]
theorem adjointRows_four (a₀ a₁ a₂ a₃ b₀ b₁ b₂ b₃ c₀ c₁ c₂ c₃ d₀ d₁ d₂ d₃ : Complex ℝ) :
    adjointRows [[a₀, a₁, a₂, a₃], [b₀, b₁, b₂, b₃], [c₀, c₁, c₂, c₃], [d₀, d₁, d₂, d₃]] =
      [[a₀.conj, b₀.conj, c₀.conj, d₀.conj], [a₁.conj, b₁.conj, c₁.conj, d₁.conj],
        [a₂.conj, b₂.conj, c₂.conj, d₂.conj], [a₃.conj, b₃.conj, c₃.conj, d₃.conj]] :=
  rfl

@[simp]
theorem conj_phase (angle : ℝ) : (phase angle).conj = phase (-angle) :=
  Complex.conj_ofPolar _ _

@[simp]
theorem conj_rootHalf : (rootHalf : Complex ℝ).conj = rootHalf :=
  Complex.conj_ofReal _

/-! ## Shapes of matrices -/

@[simp]
theorem adjointRows_diagonal (a b : Complex ℝ) :
    adjointRows (diagonal a b) = diagonal a.conj b.conj := by
  simp [diagonal]

@[simp]
theorem adjointRows_symmetric (a b : Complex ℝ) :
    adjointRows (symmetric a b) = symmetric a.conj b.conj :=
  rfl

@[simp]
theorem adjointRows_cross (d outer inner : Complex ℝ) :
    adjointRows (cross d outer inner) = cross d.conj outer.conj inner.conj := by
  simp [cross]

@[simp]
theorem adjointRows_phasedSwap (z : Complex ℝ) :
    adjointRows (phasedSwap z) = phasedSwap z.conj := by
  simp [phasedSwap]

@[simp]
theorem adjointRows_echoedCrossResonance :
    adjointRows echoedCrossResonance = echoedCrossResonance := by
  simp [echoedCrossResonance]

/-- The adjoint of the general gate has the opposite angles, the last two of them exchanged. -/
theorem adjointRows_general (theta phi lambda : ℝ) :
    adjointRows (general theta phi lambda) = general (-theta) (-lambda) (-phi) := by
  simp [general, Complex.ofPolar_neg, add_comm]

/-- Half a turn of the last two angles in opposite directions turns the first one round. -/
theorem general_turned (theta phi lambda : ℝ) :
    general theta (phi + -Scalar.pi) (lambda + Scalar.pi) = general (-theta) phi lambda := by
  have sum : phi + -Scalar.pi + (lambda + Scalar.pi) = phi + lambda := by ring
  rw [general, general, sum, ← sub_eq_add_neg, Complex.ofPolar_sub_pi, Complex.ofPolar_add_pi]
  simp [Complex.ofPolar_neg]

/-! ## The rule of each kind -/

/-- The matrix of the adjoint kind with the adjoint angles is the conjugate transpose, unless the
adjoint has other targets. -/
theorem rows?_inverse {kind : OpKind} {params : List ℝ} (count : params.length = kind.paramCount)
    (other : kind ≠ .dcx) :
    rows? kind.inverse (Gate.invertParams kind params) = (rows? kind params).map adjointRows := by
  cases kind with
  | i | h | x | y | z | s | sdg | t | tdg | v | vdg | iswap | iswapdg | ecr =>
      simp [rows?, OpKind.inverse]
  | sx | sxdg => simp [rows?, OpKind.inverse, Complex.conj]
  | swap | peres | peresdg => simp [rows?, OpKind.inverse, permutation, List.range_succ]
  | dcx => contradiction
  | u =>
      rcases List.length_eq_three.mp count with ⟨theta, phi, lambda, rfl⟩
      exact congrArg some (adjointRows_general theta phi lambda).symm
  | u2 =>
      rcases List.length_eq_two.mp count with ⟨phi, lambda, rfl⟩
      refine congrArg some ?_
      change general (half Scalar.pi) (-lambda + -Scalar.pi) (-phi + Scalar.pi) =
        adjointRows (general (half Scalar.pi) phi lambda)
      rw [general_turned, adjointRows_general]
  | p | rx | ry | rz | rxx | ryy | rzz | rzx =>
      rcases List.length_eq_one_iff.mp count with ⟨theta, rfl⟩
      simp [rows?, OpKind.inverse, Gate.invertParams, GateParameter.negated, angle]
  | xxMinusYY | xxPlusYY =>
      rcases List.length_eq_two.mp count with ⟨theta, beta, rfl⟩
      simp [rows?, OpKind.inverse, Gate.invertParams, GateParameter.negated, angle,
        interactionEntries]
  | barrier | compound | measure | reset | classicControlled => rfl

/-- Exchanging the two targets inverts two controlled X gates in opposite directions. -/
theorem rows?_dcx_exchanged (a b row col : Nat) (params params' : List ℝ) : ∃ rows rows',
    rows? .dcx params = some rows ∧ rows? .dcx params' = some rows' ∧
      (Matrix.ofRows rows').entry (gather [b, a] row) (gather [b, a] col) =
        ((Matrix.ofRows rows).entry (gather [a, b] col) (gather [a, b] row)).conj := by
  refine ⟨_, _, rfl, rfl, ?_⟩
  simp only [gather, List.foldl_cons, List.foldl_nil]
  cases row.testBit a <;> cases row.testBit b <;> cases col.testBit a <;> cases col.testBit b <;>
    simp [Matrix.ofRows, permutation, List.range_succ]

end GateMatrix

end QuantumCircuit
