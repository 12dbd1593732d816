import Mathlib.LinearAlgebra.UnitaryGroup
import Mathlib.Tactic.IntervalCases
import Mathlib.Tactic.LinearCombination
import QuantumCircuit.Proofs.Tensor.Inverse

/-!
# Gates are unitary

Over the real numbers the columns of the matrix of every kind of gate are orthonormal.  One shape of
two rows covers the gates on one qubit, and the gates on two qubits are made of two such blocks, or
permute the states.  Acting on some of many qubits under controls keeps the columns orthonormal, so
the operator of a gate is unitary.
-/

namespace QuantumCircuit

open DenseOperator TrigScalar

/-! ## Numbers of length one -/

namespace Complex

/-- Whether a complex number has length one. -/
def OnCircle (z : Complex ℝ) : Prop :=
  z.conj.value * z.value = 1

theorem one_mul' (z : Complex ℝ) : one * z = z := by
  apply ext_parts
  · change ((1 : ℕ) : ℝ) * z.re - ((0 : ℕ) : ℝ) * z.im = z.re
    simp
  · change ((1 : ℕ) : ℝ) * z.im + ((0 : ℕ) : ℝ) * z.re = z.im
    simp

theorem ofImag_neg (x : ℝ) : ofImag (-x) = -ofImag x :=
  ext_parts (by change (Scalar.zero : ℝ) = -Scalar.zero; simp) rfl

theorem onCircle_one : (one : Complex ℝ).OnCircle := by
  simp [OnCircle]

theorem onCircle_i : (i : Complex ℝ).OnCircle := by
  simp [OnCircle]

theorem OnCircle.neg {z : Complex ℝ} (onCircle : z.OnCircle) : (-z).OnCircle := by
  rw [OnCircle, conj_neg, value_neg, value_neg, neg_mul_neg]
  exact onCircle

end Complex

theorem half_one : half (Scalar.one : ℝ) = 1 / 2 :=
  congrArg (· / 2) Nat.cast_one

namespace GateMatrix

theorem value_phase (angle : ℝ) : (phase angle).value = Complex.exp (angle * Complex.I) := by
  rw [phase, Complex.value_ofPolar, Scalar.one]
  change (((1 : ℕ) : ℝ) : ℂ) * _ = _
  rw [Nat.cast_one, Complex.ofReal_one, one_mul]

theorem onCircle_phase (angle : ℝ) : (phase angle).OnCircle := by
  rw [Complex.OnCircle, conj_phase, value_phase, value_phase, ← Complex.exp_add]
  simp

theorem value_phase_neg_mul (angle : ℝ) : (phase (-angle)).value * (phase angle).value = 1 := by
  rw [← conj_phase]
  exact onCircle_phase angle

theorem value_ofPolar_eq (radius angle : ℝ) :
    (Complex.ofPolar radius angle).value = radius * (phase angle).value := by
  rw [Complex.value_ofPolar, value_phase]

theorem value_phase_add (first second : ℝ) :
    (phase (first + second)).value = (phase first).value * (phase second).value := by
  rw [value_phase, value_phase, value_phase, ← Complex.exp_add, Complex.ofReal_add, add_mul]

/-! ## Two columns -/

/-- Whether the columns of a matrix of two rows, given row by row, are orthonormal. -/
structure Orthonormal (a b c d : Complex ℝ) : Prop where
  /-- The first column has length one. -/
  first : a.conj.value * a.value + c.conj.value * c.value = 1
  /-- The second column has length one. -/
  second : b.conj.value * b.value + d.conj.value * d.value = 1
  /-- The columns are orthogonal. -/
  apart : a.conj.value * b.value + c.conj.value * d.value = 0

theorem orthonormal_diagonal {a d : Complex ℝ} (first : a.OnCircle) (second : d.OnCircle) :
    Orthonormal a .zero .zero d where
  first := by simpa [Complex.OnCircle] using first
  second := by simpa [Complex.OnCircle] using second
  apart := by simp

theorem orthonormal_antidiagonal {b c : Complex ℝ} (first : c.OnCircle) (second : b.OnCircle) :
    Orthonormal .zero b c .zero where
  first := by simpa [Complex.OnCircle] using first
  second := by simpa [Complex.OnCircle] using second
  apart := by simp

/-- A real number on the diagonal, and off it an imaginary one that is turned either way. -/
theorem orthonormal_turned {x y : ℝ} (length : (x : ℂ) ^ 2 + (y : ℂ) ^ 2 = 1) (beta : ℝ) :
    Orthonormal (.ofReal x) (.ofImag y * phase (-beta)) (.ofImag y * phase beta) (.ofReal x) := by
  have unit := value_phase_neg_mul beta
  constructor <;>
    simp only [Complex.conj_mul, Complex.conj_ofReal, Complex.conj_ofImag, conj_phase, neg_neg,
      Complex.value_mul, Complex.value_ofReal, Complex.value_ofImag, Complex.ofReal_neg]
  · linear_combination length + y ^ 2 * unit -
      y ^ 2 * ((phase (-beta)).value * (phase beta).value) * Complex.I_sq
  · linear_combination length + y ^ 2 * unit -
      y ^ 2 * ((phase (-beta)).value * (phase beta).value) * Complex.I_sq
  · ring

/-- A real number on the diagonal and an imaginary one off it. -/
theorem orthonormal_symmetric {x y : ℝ} (length : (x : ℂ) ^ 2 + (y : ℂ) ^ 2 = 1) :
    Orthonormal (.ofReal x) (.ofImag y) (.ofImag y) (.ofReal x) := by
  constructor <;>
    simp only [Complex.conj_ofReal, Complex.conj_ofImag, Complex.value_ofReal,
      Complex.value_ofImag, Complex.ofReal_neg]
  · linear_combination length - y ^ 2 * Complex.I_sq
  · linear_combination length - y ^ 2 * Complex.I_sq
  · ring

/-- A real rotation. -/
theorem orthonormal_rotation {x y : ℝ} (length : (x : ℂ) ^ 2 + (y : ℂ) ^ 2 = 1) :
    Orthonormal (.ofReal x) (.ofReal (-y)) (.ofReal y) (.ofReal x) := by
  constructor <;>
    simp only [Complex.conj_ofReal, Complex.value_ofReal, Complex.ofReal_neg]
  · linear_combination length
  · linear_combination length
  · ring

/-- The general gate on one qubit is a rotation with a phase on its second row and one on its second
column. -/
theorem orthonormal_general {x y : ℝ} (length : (x : ℂ) ^ 2 + (y : ℂ) ^ 2 = 1)
    (phi lambda : ℝ) :
    Orthonormal (.ofReal x) (-.ofPolar y lambda) (.ofPolar y phi) (.ofPolar x (phi + lambda)) := by
  have unit := value_phase_neg_mul phi
  have unit' := value_phase_neg_mul lambda
  constructor <;>
    simp only [Complex.conj_neg, Complex.conj_ofReal, Complex.conj_ofPolar, neg_add,
      Complex.value_neg, Complex.value_ofReal, value_ofPolar_eq, value_phase_add]
  · linear_combination length + y ^ 2 * unit
  · linear_combination length + y ^ 2 * unit' +
      x ^ 2 * ((phase (-lambda)).value * (phase lambda).value) * unit + x ^ 2 * unit'
  · linear_combination x * y * (phase lambda).value * unit

theorem cos_sq_add_sin_sq (angle : ℝ) :
    ((cos angle : ℝ) : ℂ) ^ 2 + ((sin angle : ℝ) : ℂ) ^ 2 = 1 := by
  rw [← Complex.ofReal_pow, ← Complex.ofReal_pow, ← Complex.ofReal_add, add_comm]
  exact (congrArg _ (Real.sin_sq_add_cos_sq angle)).trans Complex.ofReal_one

theorem neg_sq_length {x y : ℝ} (length : (x : ℂ) ^ 2 + (y : ℂ) ^ 2 = 1) :
    (x : ℂ) ^ 2 + ((-y : ℝ) : ℂ) ^ 2 = 1 := by
  rw [Complex.ofReal_neg, neg_sq]
  exact length

theorem value_rootHalf_sq : (rootHalf : Complex ℝ).value ^ 2 = 1 / 2 := by
  have half : √(1 / 2 : ℝ) ^ 2 = 1 / 2 := Real.sq_sqrt (by norm_num)
  rw [rootHalf, Complex.value_ofReal, ← Complex.ofReal_pow]
  change ((√(1 / 2 : ℝ) ^ 2 : ℝ) : ℂ) = 1 / 2
  rw [half]
  norm_num

theorem orthonormal_hadamard : Orthonormal rootHalf rootHalf rootHalf (-rootHalf) := by
  have half := value_rootHalf_sq
  constructor <;> simp only [conj_rootHalf, Complex.conj_neg, Complex.value_neg]
  · linear_combination 2 * half
  · linear_combination 2 * half
  · ring

/-- Roots of one half on the diagonal, and off it the same turned by a quarter either way. -/
theorem orthonormal_quarter {z : Complex ℝ} (onCircle : z.OnCircle) (imaginary : z.conj = -z) :
    Orthonormal rootHalf (z * rootHalf) (z * rootHalf) rootHalf := by
  have unit : z.conj.value * z.value = 1 := onCircle
  have half := value_rootHalf_sq
  rw [imaginary, Complex.value_neg] at unit
  constructor <;>
    simp only [Complex.conj_mul, conj_rootHalf, imaginary, Complex.value_mul, Complex.value_neg]
  · linear_combination 2 * half + (rootHalf : Complex ℝ).value ^ 2 * unit
  · linear_combination 2 * half + (rootHalf : Complex ℝ).value ^ 2 * unit
  · ring

/-- The square root of X. -/
theorem orthonormal_sqrtX {x : ℝ} (isHalf : x = 1 / 2) :
    Orthonormal ⟨x, x⟩ ⟨x, -x⟩ ⟨x, -x⟩ ⟨x, x⟩ := by
  have value : ∀ u v : ℝ, Complex.value ⟨u, v⟩ = u + v * Complex.I := fun u v =>
    Complex.mk_eq_add_mul_I u v
  subst isHalf
  constructor <;>
    simp only [Complex.conj, value, Complex.ofReal_neg, Complex.ofReal_div, Complex.ofReal_one,
      Complex.ofReal_ofNat]
  · linear_combination -(1 / 2) * Complex.I_sq
  · linear_combination -(1 / 2) * Complex.I_sq
  · linear_combination (1 / 2) * Complex.I_sq

/-- The rows in the other order. -/
theorem Orthonormal.exchanged {a b c d : Complex ℝ} (orthonormal : Orthonormal a b c d) :
    Orthonormal c d a b where
  first := (add_comm _ _).trans orthonormal.first
  second := (add_comm _ _).trans orthonormal.second
  apart := (add_comm _ _).trans orthonormal.apart

/-! ## Orthonormal columns -/

/-- The inner product of two columns. -/
noncomputable def columnProduct (m : Matrix (Complex ℝ)) (i j : Nat) : ℂ :=
  ∑ k ∈ Finset.range m.rows, (m.entry k i).conj.value * (m.entry k j).value

/-- Whether the columns of a square matrix are orthonormal. -/
def Isometric (m : Matrix (Complex ℝ)) : Prop :=
  ∀ i < m.rows, ∀ j < m.rows, columnProduct m i j = if i = j then 1 else 0

variable {a b c d a' b' c' d' : Complex ℝ}

/-- The columns in the other order have the conjugate product. -/
theorem Orthonormal.apart' (orthonormal : Orthonormal a b c d) :
    b.conj.value * a.value + d.conj.value * c.value = 0 := by
  have turned := congrArg star orthonormal.apart
  simp only [Complex.value_conj, star_add, star_mul', star_star, star_zero] at turned
  rw [Complex.value_conj, Complex.value_conj]
  linear_combination turned

theorem Orthonormal.isometric (orthonormal : Orthonormal a b c d) :
    Isometric (Matrix.ofRows [[a, b], [c, d]]) := by
  intro i iLt j jLt
  change i < 2 at iLt
  change j < 2 at jLt
  change ∑ k ∈ Finset.range 2, _ = _
  interval_cases i <;> interval_cases j <;>
    simp only [Finset.sum_range_succ, Finset.sum_range_zero, zero_add]
  · exact orthonormal.first
  · exact orthonormal.apart
  · exact orthonormal.apart'
  · exact orthonormal.second

/-- Two blocks, on the outer and on the inner two of four states. -/
theorem isometric_interleaved (outer : Orthonormal a b c d) (inner : Orthonormal a' b' c' d') :
    Isometric (Matrix.ofRows [[a, .zero, .zero, b], [.zero, a', b', .zero],
      [.zero, c', d', .zero], [c, .zero, .zero, d]]) := by
  intro i iLt j jLt
  change i < 4 at iLt
  change j < 4 at jLt
  change ∑ k ∈ Finset.range 4, _ = _
  interval_cases i <;> interval_cases j <;>
    simp [Finset.sum_range_succ, Matrix.ofRows, outer.first, outer.second, outer.apart,
      outer.apart', inner.first, inner.second, inner.apart, inner.apart']

/-- Two blocks, on the first and on the last two of four states. -/
theorem isometric_stacked (upper : Orthonormal a b c d) (lower : Orthonormal a' b' c' d') :
    Isometric (Matrix.ofRows [[a, b, .zero, .zero], [c, d, .zero, .zero],
      [.zero, .zero, a', b'], [.zero, .zero, c', d']]) := by
  intro i iLt j jLt
  change i < 4 at iLt
  change j < 4 at jLt
  change ∑ k ∈ Finset.range 4, _ = _
  interval_cases i <;> interval_cases j <;>
    simp [Finset.sum_range_succ, Matrix.ofRows, upper.first, upper.second, upper.apart,
      upper.apart', lower.first, lower.second, lower.apart, lower.apart']

/-- Two blocks, each from the even states to the odd ones or back. -/
theorem isometric_crossed (even : Orthonormal a b c d) (odd : Orthonormal a' b' c' d') :
    Isometric (Matrix.ofRows [[.zero, a', .zero, b'], [a, .zero, b, .zero],
      [.zero, c', .zero, d'], [c, .zero, d, .zero]]) := by
  intro i iLt j jLt
  change i < 4 at iLt
  change j < 4 at jLt
  change ∑ k ∈ Finset.range 4, _ = _
  interval_cases i <;> interval_cases j <;>
    simp [Finset.sum_range_succ, Matrix.ofRows, even.first, even.second, even.apart,
      even.apart', odd.first, odd.second, odd.apart, odd.apart']

theorem entry_permutation {images : List Nat} {r c : Nat} (rLt : r < images.length)
    (cLt : c < images.length) : (Matrix.ofRows (permutation images : List (List (Complex ℝ)))).entry
      r c = if images[c] = r then .one else .zero := by
  have row : (permutation images : List (List (Complex ℝ))).getD r [] =
      images.map fun image => if image = r then .one else .zero := by
    rw [permutation, List.getD_eq_getElem?_getD, List.getElem?_map, List.getElem?_range rLt]
    rfl
  change ((permutation images).getD r []).getD c .zero = _
  rw [row, List.getD_eq_getElem?_getD, List.getElem?_map, List.getElem?_eq_getElem cLt]
  rfl

/-- A permutation of the states. -/
theorem isometric_permutation {images : List Nat} (distinct : images.Nodup)
    (below : ∀ image ∈ images, image < images.length) :
    Isometric (Matrix.ofRows (permutation images)) := by
  have size : (Matrix.ofRows (permutation images : List (List (Complex ℝ)))).rows =
      images.length := by
    simp [Matrix.ofRows, permutation]
  intro i iLt j jLt
  rw [size] at iLt jLt
  have product : ∀ k ∈ Finset.range images.length,
      ((Matrix.ofRows (permutation images)).entry k i).conj.value *
        ((Matrix.ofRows (permutation images)).entry k j).value =
      if images[i] = k then if images[j] = k then 1 else 0 else 0 := by
    intro k member
    have kLt := Finset.mem_range.mp member
    rw [entry_permutation kLt iLt, entry_permutation kLt jLt]
    split_ifs <;> simp
  rw [columnProduct, size, Finset.sum_congr rfl product, Finset.sum_ite_eq,
    if_pos (Finset.mem_range.mpr (below _ (List.getElem_mem iLt)))]
  simp only [distinct.getElem_inj_iff, eq_comm]

/-! ## All kinds of gates -/

/-- The columns of the matrix of every kind of gate are orthonormal. -/
theorem isometric_rows? {kind : OpKind} {params : List ℝ} {rows : List (List (Complex ℝ))}
    (found : rows? kind params = some rows) : Isometric (Matrix.ofRows rows) := by
  have length := cos_sq_add_sin_sq (half (angle params 0))
  have one := Complex.onCircle_one
  have i := Complex.onCircle_i
  have identity := orthonormal_diagonal one one
  cases kind <;> cases found
  case i => exact identity.isometric
  case z => exact (orthonormal_diagonal one one.neg).isometric
  case s => exact (orthonormal_diagonal one i).isometric
  case sdg => exact (orthonormal_diagonal one i.neg).isometric
  case t | tdg | p => exact (orthonormal_diagonal one (onCircle_phase _)).isometric
  case rz => exact (orthonormal_diagonal (onCircle_phase _) (onCircle_phase _)).isometric
  case x => exact (orthonormal_antidiagonal one one).isometric
  case y => exact (orthonormal_antidiagonal i i.neg).isometric
  case h => exact orthonormal_hadamard.isometric
  case v => exact (orthonormal_quarter i.neg (by simp)).isometric
  case vdg => exact (orthonormal_quarter i (by simp)).isometric
  case sx => exact (orthonormal_sqrtX half_one).isometric
  case sxdg => exact (orthonormal_sqrtX half_one).exchanged.isometric
  case u => exact (orthonormal_general length _ _).isometric
  case u2 => exact (orthonormal_general (cos_sq_add_sin_sq _) _ _).isometric
  case rx => exact (orthonormal_symmetric (neg_sq_length length)).isometric
  case ry => exact (orthonormal_rotation length).isometric
  case swap | peres | peresdg | dcx => exact isometric_permutation (by decide) (by decide)
  case iswap => exact isometric_interleaved identity (orthonormal_antidiagonal i i)
  case iswapdg => exact isometric_interleaved identity (orthonormal_antidiagonal i.neg i.neg)
  case ecr =>
    have ahead := orthonormal_quarter i (by simp)
    have back := orthonormal_quarter i.neg (by simp)
    rw [neg_mul] at back
    rw [echoedCrossResonance, Complex.one_mul']
    exact isometric_crossed back ahead
  case rxx =>
    have block := orthonormal_symmetric (neg_sq_length length)
    exact isometric_interleaved block block
  case ryy =>
    have negative := orthonormal_symmetric (neg_sq_length length)
    rw [Complex.ofImag_neg] at negative
    exact isometric_interleaved (orthonormal_symmetric length) negative
  case rzz =>
    exact isometric_interleaved (orthonormal_diagonal (onCircle_phase _) (onCircle_phase _))
      (orthonormal_diagonal (onCircle_phase _) (onCircle_phase _))
  case rzx =>
    have negative := orthonormal_symmetric (neg_sq_length length)
    rw [Complex.ofImag_neg] at negative
    exact isometric_stacked negative (orthonormal_symmetric length)
  case xxMinusYY =>
    exact isometric_interleaved (orthonormal_turned (neg_sq_length length) _) identity
  case xxPlusYY =>
    exact isometric_interleaved identity (orthonormal_turned (neg_sq_length length) _)

end GateMatrix

/-! ## Acting on some of many qubits -/

namespace DenseOperator

open GateMatrix

/-- Writing over qubits below a bound stays below it. -/
theorem scatter_lt {targets : List Nat} {n state : Nat} (below : ∀ q ∈ targets, q < n)
    (bounded : state < 2 ^ n) (bits : Nat) :
    scatter targets bits (clear targets state) < 2 ^ n := by
  apply Nat.lt_pow_two_of_testBit
  intro q above
  have other : q ∉ targets := fun member => absurd (below q member) (Nat.not_lt.mpr above)
  rw [testBit_scatter_of_not_mem other, testBit_clear, decide_eq_true other, Bool.and_true]
  exact Nat.testBit_lt_two_pow (bounded.trans_le (Nat.pow_le_pow_right (by decide) above))

/-- Summing over the states that agree with one outside of the targets is summing over the numbers
that can be written over them. -/
theorem sum_cleared {targets : List Nat} (distinct : targets.Nodup) {n : Nat}
    (below : ∀ q ∈ targets, q < n) {state : Nat} (bounded : state < 2 ^ n) (f : Nat → ℂ) :
    (∑ k ∈ Finset.range (2 ^ n),
        if clear targets k = clear targets state then f (gather targets k) else 0) =
      ∑ bits ∈ Finset.range (2 ^ targets.length), f bits := by
  have written : ∀ bits ∈ Finset.range (2 ^ targets.length),
      clear targets (scatter targets bits (clear targets state)) = clear targets state ∧
        bits = gather targets (scatter targets bits (clear targets state)) :=
    fun bits member => (scatter_clear_eq_iff distinct (Finset.mem_range.mp member)).mp rfl
  rw [← Finset.sum_filter]
  refine Finset.sum_nbij' (gather targets)
    (fun bits => scatter targets bits (clear targets state)) ?_ ?_ ?_ ?_ fun _ _ => rfl
  · exact fun k _ => Finset.mem_range.mpr (gather_lt targets k)
  · intro bits member
    exact Finset.mem_filter.mpr
      ⟨Finset.mem_range.mpr (scatter_lt below bounded bits), (written bits member).1⟩
  · intro k member
    exact (scatter_clear_eq_iff distinct (gather_lt targets k)).mpr
      ⟨(Finset.mem_filter.mp member).2, rfl⟩
  · exact fun bits member => (written bits member).2.symm

/-- The columns of the action of a gate are orthonormal if those of its own matrix are, the targets
are distinct, and none of them is a control. -/
theorem sum_action_conj_mul {unitary : Matrix (Complex ℝ)} (isometric : Isometric unitary)
    {controls : List Control} {targets : List Nat} (size : unitary.rows = 2 ^ targets.length)
    (distinct : targets.Nodup) (apart : ∀ c ∈ controls, c.qubit ∉ targets) {n : Nat}
    (below : ∀ q ∈ targets, q < n) {i j : Nat} (iLt : i < 2 ^ n) (jLt : j < 2 ^ n) :
    (∑ k ∈ Finset.range (2 ^ n), (action unitary controls targets k i).conj.value *
        (action unitary controls targets k j).value) = if i = j then 1 else 0 := by
  by_cases cleared : clear targets i = clear targets j
  · have activity : active controls i = active controls j :=
      active_congr fun c mem => clear_eq_iff.mp cleared c.qubit (apart c mem)
    have same : i = j ↔ gather targets i = gather targets j := by
      rw [eq_iff_clear_gather targets, and_iff_right cleared]
    cases on : active controls j with
    | true =>
        rw [on] at activity
        have term : ∀ k ∈ Finset.range (2 ^ n), (action unitary controls targets k i).conj.value *
              (action unitary controls targets k j).value =
            if clear targets k = clear targets i then
              (unitary.entry (gather targets k) (gather targets i)).conj.value *
                (unitary.entry (gather targets k) (gather targets j)).value
            else 0 := by
          intro k _
          rw [action, action, if_pos activity, if_pos on, ← cleared]
          split_ifs <;> simp
        rw [Finset.sum_congr rfl term, sum_cleared distinct below iLt fun bits =>
            (unitary.entry bits (gather targets i)).conj.value *
              (unitary.entry bits (gather targets j)).value, ← size]
        refine (isometric (gather targets i) ?_ (gather targets j) ?_).trans ?_
        · rw [size]
          exact gather_lt targets i
        · rw [size]
          exact gather_lt targets j
        · simp only [same]
    | false =>
        rw [on] at activity
        have term : ∀ k ∈ Finset.range (2 ^ n), (action unitary controls targets k i).conj.value *
            (action unitary controls targets k j).value =
              if i = k then if j = k then 1 else 0 else 0 := by
          intro k _
          rw [action, action, activity, on, if_neg Bool.false_ne_true, if_neg Bool.false_ne_true]
          simp only [eq_comm (a := k)]
          split_ifs <;> simp
        rw [Finset.sum_congr rfl term, Finset.sum_ite_eq, if_pos (Finset.mem_range.mpr iLt)]
        simp only [eq_comm]
  · -- The states differ outside of the targets, so no state can come from both.
    obtain ⟨q, other, differ⟩ : ∃ q, q ∉ targets ∧ i.testBit q ≠ j.testBit q := by
      by_contra agree
      refine cleared (clear_eq_iff.mpr fun q other => ?_)
      by_contra differ
      exact agree ⟨q, other, differ⟩
    have distinctStates : i ≠ j := by
      rintro rfl
      exact differ rfl
    rw [if_neg distinctStates]
    refine Finset.sum_eq_zero fun k _ => ?_
    by_cases agree : k.testBit q = i.testBit q
    · rw [← agree] at differ
      rw [action_eq_zero differ other, Complex.value_zero, mul_zero]
    · rw [action_eq_zero agree other, Complex.conj_zero, Complex.value_zero, zero_mul]

end DenseOperator

/-- The operator of a gate is unitary. -/
theorem Gate.actionOperator_mem_unitaryGroup {g : Gate ℝ} {n : Nat} (proper : g.Proper)
    (below : ∀ q ∈ g.operands, q < n) {unitary : Matrix (Complex ℝ)}
    (found : gateMatrix? g.kind g.params = some unitary) :
    Gate.actionOperator n unitary g ∈ Matrix.unitaryGroup (Fin (2 ^ n)) ℂ := by
  obtain ⟨rows, foundRows, rfl⟩ := Option.map_eq_some_iff.mp found
  obtain ⟨unitary', found', size⟩ := exists_gateMatrix? proper.1 g.params
  obtain rfl := Option.some.inj (found.symm.trans found')
  obtain ⟨-, distinct, apart⟩ := List.nodup_append.mp proper.2
  rw [Matrix.mem_unitaryGroup_iff']
  ext i j
  rw [Matrix.mul_apply, Matrix.one_apply]
  have columns := sum_action_conj_mul (GateMatrix.isometric_rows? foundRows) size distinct
    (fun c member target => apart _ (List.mem_map_of_mem member) _ target rfl)
    (fun q target => below q (Gate.target_mem_operands target)) i.isLt j.isLt
  rw [← Fin.sum_univ_eq_sum_range fun k =>
    (action (Matrix.ofRows rows) g.controls.keys g.targets k i).conj.value *
      (action (Matrix.ofRows rows) g.controls.keys g.targets k j).value] at columns
  exact columns.trans (if_congr Fin.ext_iff.symm rfl rfl)

end QuantumCircuit
