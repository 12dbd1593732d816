import Mathlib.Analysis.SpecialFunctions.Complex.Log
import QuantumCircuit.Circuit.Phase
import QuantumCircuit.Circuit.Transform
import QuantumCircuit.Proofs.Tensor.Unitary

/-!
# Inverting a circuit

A circuit of gates stands for the product of their operators, turned by the global phase.  Inverting
it inverts the gates and reverses their order, which gives the conjugate transpose of the product,
but the global phase stays as it is instead of being turned round.  So the inverse stands for the
conjugate transpose, and undoes the circuit, exactly if the global phase is a multiple of half a
turn.
-/

namespace QuantumCircuit

variable {n : Nat}

/-! ## Operators over any number of qubits -/

namespace Gate

variable {g : Gate ℝ}

/-- The operator of a gate over any number of qubits, also where no matrix of its size can be
stored. -/
noncomputable def denoted? (n : Nat) (g : Gate ℝ) : Option (QubitOperator n) :=
  (gateMatrix? g.kind g.params).map fun unitary => actionOperator n unitary g

/-- Where it can be stored, it is the one that the backend gives. -/
theorem operator?_eq_denoted? (placed : g.Placed n) (stored : n ≤ maxMatrixQubits) :
    g.operator? n = g.denoted? n := by
  rcases exists_gateMatrix? placed.proper.1 g.params with ⟨unitary, found, _⟩
  rw [operator?_eq placed found, if_pos stored, denoted?, found, Option.map_some]

theorem exists_denoted? (placed : g.Placed n) :
    ∃ u, u ∈ Matrix.unitaryGroup (Fin (2 ^ n)) ℂ ∧ g.denoted? n = some u := by
  rcases exists_gateMatrix? placed.proper.1 g.params with ⟨unitary, found, _⟩
  exact ⟨_, actionOperator_mem_unitaryGroup placed.proper placed.below found,
    by rw [denoted?, found, Option.map_some]⟩

theorem denoted?_adjoint (placed : g.Placed n) :
    g.invert.denoted? n = (g.denoted? n).map Matrix.conjTranspose := by
  rcases exists_actionOperator_adjoint placed with ⟨unitary, adjoint, found, found', transposed⟩
  rw [denoted?, denoted?, found, found', Option.map_some, Option.map_some, transposed,
    Option.map_some]

end Gate

namespace Operation

/-- The operator of a list of operations: the first gate acts first, so it comes last in the
product. -/
noncomputable def denotedAll? (n : Nat) (ops : List (Operation ℝ)) : Option (QubitOperator n) :=
  ((leafGatesAll ops).mapM (Gate.denoted? n)).map fun us => us.reverse.prod

variable {ops : List (Operation ℝ)}

/-- The operator of gates is unitary. -/
theorem exists_denotedAll? (placed : AllEachGate (fun g => g.Placed n) ops) :
    ∃ u, u ∈ Matrix.unitaryGroup (Fin (2 ^ n)) ℂ ∧ denotedAll? n ops = some u := by
  rcases exists_mapM_forall fun g member =>
    Gate.exists_denoted? (holds_of_mem_leafGatesAll placed member) with ⟨us, unitary, found⟩
  refine ⟨us.reverse.prod, Submonoid.list_prod_mem _ fun u member => ?_, ?_⟩
  · exact unitary u (List.mem_reverse.mp member)
  · rw [denotedAll?, found, Option.map_some]

/-- The operator of the adjoints in reverse order is the conjugate transpose. -/
theorem denotedAll?_invertAll (placed : AllEachGate (fun g => g.Placed n) ops) :
    denotedAll? n (invertAll ops) = (denotedAll? n ops).map Matrix.conjTranspose := by
  have each := mapM_reverse_of_map fun g member =>
    Gate.denoted?_adjoint (holds_of_mem_leafGatesAll placed member)
  rw [denotedAll?, denotedAll?, invertAll, leafGatesAll_invertEach, each, Option.map_map,
    Option.map_map]
  refine congrArg (Option.map · _) (funext fun us => ?_)
  change ((us.map Matrix.conjTranspose).reverse).reverse.prod = us.reverse.prod.conjTranspose
  rw [List.reverse_reverse, Matrix.conjTranspose_list_prod, List.map_reverse, List.reverse_reverse]

end Operation

namespace Circuit

/-! ## Phases -/

theorem star_exp_mul_exp (phase : ℝ) :
    star (Complex.exp (phase * Complex.I)) * Complex.exp (phase * Complex.I) = 1 := by
  rw [← GateMatrix.value_phase, ← Complex.value_conj]
  exact GateMatrix.onCircle_phase phase

theorem exp_two_mul (phase : ℝ) : Complex.exp (2 * phase * Complex.I) =
    Complex.exp (phase * Complex.I) * Complex.exp (phase * Complex.I) := by
  rw [← Complex.exp_add, mul_assoc, two_mul]

/-- Twice a phase is a whole number of turns exactly if the phase is a multiple of half a turn. -/
theorem exp_two_mul_eq_one_iff (phase : ℝ) :
    Complex.exp (2 * phase * Complex.I) = 1 ↔ ∃ k : ℤ, phase = k * Real.pi := by
  rw [Complex.exp_eq_one_iff]
  refine exists_congr fun k => ?_
  have sides : (2 * phase * Complex.I = k * (2 * Real.pi * Complex.I)) ↔
      2 * Complex.I * (phase : ℂ) = 2 * Complex.I * ((k * Real.pi : ℝ) : ℂ) := by
    push_cast
    constructor <;> intro equal <;> linear_combination equal
  rw [sides, mul_right_inj' (mul_ne_zero two_ne_zero Complex.I_ne_zero), Complex.ofReal_inj]

/-- Only one times the identity is the identity. -/
theorem smul_one_eq_one_iff (z : ℂ) : z • (1 : QubitOperator n) = 1 ↔ z = 1 := by
  constructor
  · intro equal
    have entry := congrFun (congrFun equal 0) 0
    simpa using entry
  · rintro rfl
    exact one_smul ℂ _

/-- A phase that lies in one turn from zero on is kept. -/
theorem normalizePhase_of_mem {phase : ℝ} (nonneg : 0 ≤ phase) (below : phase < 2 * Real.pi) :
    normalizePhase phase = phase := by
  have turn : (Scalar.turn : ℝ) = 2 * Real.pi := congrArg (· * Real.pi) Nat.cast_two
  have many : Scalar.le (Scalar.ofNat manyTurns * Scalar.turn) (Scalar.abs phase) = false := by
    refine decide_eq_false (not_le.mpr ?_)
    change |phase| < ((1024 : ℕ) : ℝ) * Scalar.turn
    rw [turn, abs_of_nonneg nonneg]
    push_cast
    linarith
  have raised : Scalar.lt phase Scalar.zero = false := by
    refine decide_eq_false (not_lt.mpr ?_)
    rw [scalar_zero_eq]
    exact nonneg
  have lowered : Scalar.le Scalar.turn phase = false := by
    refine decide_eq_false (not_le.mpr ?_)
    rw [turn]
    exact below
  simp only [normalizePhase, many, raisePhase, raised, lowerPhase, lowered, Bool.false_eq_true,
    if_false]

/-! ## Circuits of gates -/

/-- The operator of a circuit of gates. -/
noncomputable def denoted? (n : Nat) (c : Circuit ℝ) : Option (QubitOperator n) :=
  (Operation.denotedAll? n c.ops).map fun u => Complex.exp (c.globalPhase * Complex.I) • u

variable {c : Circuit ℝ}

/-- The inverse of a circuit of gates stands for the conjugate transpose, turned by twice the global
phase. -/
theorem exists_denoted?_invert (placed : Operation.AllEachGate (fun g => g.Placed n) c.ops) :
    ∃ u, u ∈ Matrix.unitaryGroup (Fin (2 ^ n)) ℂ ∧ c.denoted? n = some u ∧
      c.invert.denoted? n =
        some (Complex.exp (2 * c.globalPhase * Complex.I) • u.conjTranspose) := by
  rcases Operation.exists_denotedAll? placed with ⟨w, unitary, found⟩
  have unit := star_exp_mul_exp c.globalPhase
  refine ⟨Complex.exp (c.globalPhase * Complex.I) • w, ?_, ?_, ?_⟩
  · rw [Matrix.mem_unitaryGroup_iff'] at unitary ⊢
    rw [star_smul, smul_mul_smul_comm, unit, unitary, one_smul]
  · rw [denoted?, found, Option.map_some]
  · rw [denoted?, ops_invert, globalPhase_invert, Operation.denotedAll?_invertAll placed, found,
      Option.map_some, Option.map_some, Matrix.conjTranspose_smul, smul_smul, exp_two_mul, mul_assoc,
      mul_comm _ (star _), unit, mul_one]

/-- The inverse stands for the conjugate transpose exactly if it undoes the circuit, and exactly if
the global phase is a multiple of half a turn. -/
theorem undone_iff {u : QubitOperator n} (unitary : u ∈ Matrix.unitaryGroup (Fin (2 ^ n)) ℂ)
    (phase : ℝ) :
    (Complex.exp (2 * phase * Complex.I) • u.conjTranspose * u = 1 ↔
      ∃ k : ℤ, phase = k * Real.pi) ∧
    (Complex.exp (2 * phase * Complex.I) • u.conjTranspose = u.conjTranspose ↔
      ∃ k : ℤ, phase = k * Real.pi) := by
  have inverse : u.conjTranspose * u = 1 := Matrix.mem_unitaryGroup_iff'.mp unitary
  have undone : Complex.exp (2 * phase * Complex.I) • u.conjTranspose * u = 1 ↔
      ∃ k : ℤ, phase = k * Real.pi := by
    rw [smul_mul_assoc, inverse, smul_one_eq_one_iff, exp_two_mul_eq_one_iff]
  refine ⟨undone, ?_⟩
  constructor
  · intro equal
    rw [← undone, equal, inverse]
  · intro multiple
    rw [(exp_two_mul_eq_one_iff phase).mpr multiple, one_smul]

/-- A circuit of gates stands for a unitary operator, which is made of the operators that the
backend gives where they can be stored.  Its inverse stands for the conjugate transpose turned by
twice the global phase.  So it stands for the conjugate transpose itself, and running the circuit
and its inverse is the identity, exactly if the global phase is a multiple of half a turn. -/
theorem denoted?_invert (placed : Operation.AllEachGate (fun g => g.Placed n) c.ops) :
    (n ≤ maxMatrixQubits → ∀ g ∈ Operation.leafGatesAll c.ops, g.operator? n = g.denoted? n) ∧
    ∃ u v, u ∈ Matrix.unitaryGroup (Fin (2 ^ n)) ℂ ∧
      c.denoted? n = some u ∧ c.invert.denoted? n = some v ∧
      v = Complex.exp (2 * c.globalPhase * Complex.I) • u.conjTranspose ∧
      (v = u.conjTranspose ↔ ∃ k : ℤ, c.globalPhase = k * Real.pi) ∧
      (v * u = 1 ↔ ∃ k : ℤ, c.globalPhase = k * Real.pi) := by
  rcases exists_denoted?_invert placed with ⟨u, unitary, denoted, inverse⟩
  obtain ⟨undone, transposed⟩ := undone_iff unitary c.globalPhase
  refine ⟨fun stored g member => ?_, u, _, unitary, denoted, inverse, rfl, transposed, undone⟩
  exact Gate.operator?_eq_denoted? (Operation.holds_of_mem_leafGatesAll placed member) stored

/-- Two controlled X gates in opposite directions in a block, a gate without an angle, and half a
turn as the global phase. -/
theorem denoted?_invert_halfTurn :
    let block : Operation ℝ := .compound [.standard ⟨.dcx, .empty, [0, 1], []⟩]
    let c : Circuit ℝ := addPhase
      { (blank Config.default).insertQubits 2 "q" with
        ops := [block, .standard ⟨.t, .ofList [⟨0, .negative⟩], [1], []⟩] } Real.pi
    c.globalPhase = Real.pi ∧ ∃ u v, c.denoted? 2 = some u ∧ c.invert.denoted? 2 = some v ∧
      v = u.conjTranspose ∧ v * u = 1 := by
  intro block c
  have added : c.globalPhase = Real.pi := by
    change normalizePhase (Scalar.zero + Real.pi) = Real.pi
    rw [scalar_zero_eq, zero_add]
    exact normalizePhase_of_mem Real.pi_pos.le (by linarith [Real.pi_pos])
  have placed : Operation.AllEachGate (fun g => g.Placed 2) c.ops :=
    ⟨⟨⟨by decide, rfl, by decide⟩, trivial⟩, ⟨by decide, rfl, by decide⟩, trivial⟩
  obtain ⟨-, u, v, -, denoted, inverse, -, transposed, undone⟩ := denoted?_invert placed
  have multiple : ∃ k : ℤ, c.globalPhase = k * Real.pi := ⟨1, by rw [added]; simp⟩
  exact ⟨added, u, v, denoted, inverse, transposed.mpr multiple, undone.mpr multiple⟩

/-- A circuit without operations that has a global phase of one half.  Its inverse has the same
global phase, so it stands for the same operator instead of the conjugate transpose. -/
theorem not_denoted?_conjTranspose :
    let c : Circuit ℝ := ((blank Config.default).insertQubits 1 "q").addPhase (1 / 2)
    c.globalPhase = 1 / 2 ∧ ∃ u v, c.denoted? 1 = some u ∧ c.invert.denoted? 1 = some v ∧
      v ≠ u.conjTranspose ∧ v * u ≠ 1 := by
  intro c
  have added : c.globalPhase = 1 / 2 := by
    change normalizePhase (Scalar.zero + 1 / 2) = 1 / 2
    rw [scalar_zero_eq, zero_add]
    exact normalizePhase_of_mem (by norm_num) (by linarith [Real.two_le_pi])
  have placed : Operation.AllEachGate (fun g => g.Placed 1) c.ops := trivial
  have between : ¬ ∃ k : ℤ, c.globalPhase = k * Real.pi := by
    rintro ⟨k, multiple⟩
    rw [added] at multiple
    have large := Real.two_le_pi
    rcases lt_or_ge k 1 with small | positive
    · have nonpos : (k : ℝ) ≤ 0 := by exact_mod_cast Int.lt_add_one_iff.mp small
      nlinarith
    · have atLeast : (1 : ℝ) ≤ k := by exact_mod_cast positive
      nlinarith
  rcases exists_denoted?_invert placed with ⟨u, unitary, denoted, inverse⟩
  obtain ⟨undone, transposed⟩ := undone_iff unitary c.globalPhase
  exact ⟨added, u, _, denoted, inverse, mt transposed.mp between, mt undone.mp between⟩

end Circuit

end QuantumCircuit
