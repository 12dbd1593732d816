import QuantumCircuit.Operation.Inverse
import QuantumCircuit.Proofs.Operation.Touched

/-!
# Adjoints of operations

The adjoint of an operation touches the same qubits.  Taking the adjoint twice gives the operation
back: kinds come in pairs, the targets of a double controlled X change places twice, blocks are
reversed twice, and angles change their signs twice.  The exception is a `u2` gate with two angles,
whose angles are shifted by half a turn, forth and back, which rounding does not undo.
-/

namespace QuantumCircuit

/-! ## Gates -/

namespace Gate

theorem inverse_eq_barrier_iff {kind : OpKind} : kind.inverse = .barrier ↔ kind = .barrier := by
  cases kind <;> decide

theorem invertTargets_perm (kind : OpKind) (targets : List Nat) :
    (invertTargets kind targets).Perm targets := by
  unfold invertTargets
  split
  · exact .swap _ _ _
  · exact .refl _

/-- Targets change places twice, or not at all. -/
theorem invertTargets_invertTargets (kind : OpKind) (targets : List Nat) :
    invertTargets kind.inverse (invertTargets kind targets) = targets := by
  cases kind with
  | dcx => rcases targets with _ | ⟨a, _ | ⟨b, _ | ⟨c, rest⟩⟩⟩ <;> rfl
  | _ => rfl

/-- Whether a gate is a `u2` gate with exactly two angles. -/
def isTwoAngleU2 {P : Type} (g : Gate P) : Bool :=
  g.kind == .u2 && g.params.length == 2

variable {S P : Type} [Scalar S] [GateParameter S P]

/-- Angles change their signs twice, or not at all. -/
theorem invertParams_invertParams
    (undone : ∀ p : P, GateParameter.negated (GateParameter.negated p) = p)
    {kind : OpKind} {params : List P} (other : ¬ (kind = .u2 ∧ params.length = 2)) :
    invertParams kind.inverse (invertParams kind params) = params := by
  cases kind with
  | u =>
      rcases params with _ | ⟨theta, _ | ⟨phi, _ | ⟨lambda, _ | ⟨more, rest⟩⟩⟩⟩
      case cons.cons.cons.nil =>
        change [_, _, _] = _
        rw [undone, undone, undone]
      all_goals rfl
  | u2 =>
      rcases params with _ | ⟨phi, _ | ⟨lambda, _ | ⟨more, rest⟩⟩⟩
      case cons.cons.nil => exact absurd ⟨rfl, rfl⟩ other
      all_goals rfl
  | p | rx | ry | rz | rxx | ryy | rzz | rzx | xxMinusYY | xxPlusYY =>
      rcases params with _ | ⟨theta, rest⟩
      · rfl
      · exact congrArg (· :: rest) (undone theta)
  | _ => rfl

theorem invert_invert (undone : ∀ p : P, GateParameter.negated (GateParameter.negated p) = p)
    {g : Gate P} (other : g.isTwoAngleU2 = false) : g.invert.invert = g := by
  have notBoth : ¬ (g.kind = .u2 ∧ g.params.length = 2) := by
    simpa [isTwoAngleU2] using other
  simp only [invert, OpKind.inverse_inverse, invertTargets_invertTargets,
    invertParams_invertParams undone notBoth]

end Gate

/-! ## Signs -/

/-- What it takes for changing a sign, of a number and of an expression, to be undone by changing it
again. -/
structure Scalar.ExactSigns (S : Type) [Scalar S] : Prop where
  /-- Two signs cancel. -/
  neg_neg : ∀ x : S, - -x = x
  /-- Minus one times a number has the opposite sign. -/
  mul_neg_one : ∀ x : S, x * -Scalar.one = -x
  /-- Minus one is not taken for zero. -/
  neg_one_ne_zero : Scalar.isZero (-Scalar.one : S) = false

variable {S : Type} [Scalar S]

/-- The term with the opposite sign. -/
def Term.neg (t : Term S) : Term S :=
  ⟨-t.coefficient, t.name⟩

/-- An expression times minus one has all signs changed. -/
theorem Expression.neg_eq (signs : Scalar.ExactSigns S) (e : Expression S) :
    e.neg = ⟨e.terms.map Term.neg, -e.constant⟩ := by
  simp only [neg, scale, signs.neg_one_ne_zero, Bool.false_eq_true, if_false, signs.mul_neg_one]
  rfl

theorem Expression.neg_neg (signs : Scalar.ExactSigns S) (e : Expression S) : e.neg.neg = e := by
  have twice : (Term.neg ∘ Term.neg : Term S → Term S) = id :=
    funext fun t => congrArg (Term.mk · t.name) (signs.neg_neg t.coefficient)
  rw [neg_eq signs, neg_eq signs, List.map_map, twice, List.map_id, signs.neg_neg]

theorem Parameter.negated_negated (signs : Scalar.ExactSigns S) (p : Parameter S) :
    p.negated.negated = p := by
  cases p with
  | number v => exact congrArg number (signs.neg_neg v)
  | symbol e => exact congrArg symbol (e.neg_neg signs)

namespace Operation

/-! ## Operations -/

mutual

/-- Whether a `u2` gate with exactly two angles occurs, also under conditions and in blocks. -/
def hasTwoAngleU2 : Operation S → Bool
  | .standard g => g.isTwoAngleU2
  | .symbolic g => g.isTwoAngleU2
  | .nonUnitary _ => false
  | .conditioned op _ => op.hasTwoAngleU2
  | .compound ops => anyTwoAngleU2 ops
termination_by structural op => op

/-- Whether a `u2` gate with exactly two angles occurs in a list. -/
def anyTwoAngleU2 : List (Operation S) → Bool
  | [] => false
  | op :: ops => op.hasTwoAngleU2 || anyTwoAngleU2 ops
termination_by structural ops => ops

end

theorem invertAll_invertAll (ops : List (Operation S)) :
    invertAll (invertAll ops) = ops.map fun op => op.invert.invert := by
  simp only [invertAll, invertEach_eq_map, List.map_reverse, List.reverse_reverse, List.map_map]
  rfl

mutual

/-- An operation is the adjoint of its adjoint. -/
theorem invert_invert (signs : Scalar.ExactSigns S) : ∀ {op : Operation S},
    op.hasTwoAngleU2 = false → op.invert.invert = op
  | .standard _, other => congrArg standard (Gate.invert_invert signs.neg_neg other)
  | .symbolic _, other =>
      congrArg symbolic (Gate.invert_invert (Parameter.negated_negated signs) other)
  | .nonUnitary _, _ => rfl
  | .conditioned op c, other => by
      have inner : op.hasTwoAngleU2 = false := other
      exact congrArg (conditioned · c) (invert_invert signs inner)
  | .compound ops, other => by
      change compound (invertAll (invertAll ops)) = _
      rw [invertAll_invertAll, map_invert_invert signs other]

theorem map_invert_invert (signs : Scalar.ExactSigns S) : ∀ {ops : List (Operation S)},
    anyTwoAngleU2 ops = false → (ops.map fun op => op.invert.invert) = ops
  | [], _ => rfl
  | op :: ops, other => by
      rw [anyTwoAngleU2, Bool.or_eq_false_iff] at other
      rw [List.map_cons, invert_invert signs other.1, map_invert_invert signs other.2]

end

/-! ## What is touched -/

theorem controls_invert (op : Operation S) : op.invert.controls = op.controls := by
  induction op using isPlain.induct with
  | case1 g => rfl
  | case2 g => rfl
  | case3 e => rfl
  | case4 op c ih => exact ih
  | case5 ops => rfl

theorem targets_invert_perm (op : Operation S) : op.invert.targets.Perm op.targets := by
  induction op using isPlain.induct with
  | case1 g => exact Gate.invertTargets_perm g.kind g.targets
  | case2 g => exact Gate.invertTargets_perm g.kind g.targets
  | case3 e => rfl
  | case4 op c ih => exact ih
  | case5 ops => rfl

theorem mem_ownQubits_invert {q : Nat} (op : Operation S) :
    q ∈ op.invert.ownQubits.keys ↔ q ∈ op.ownQubits.keys := by
  rw [mem_ownQubits, mem_ownQubits, ownsQubit_iff, ownsQubit_iff, controls_invert,
    (targets_invert_perm op).mem_iff]

mutual

/-- The adjoint touches the same qubits. -/
theorem mem_usedQubits_invert {q : Nat} : ∀ op : Operation S,
    q ∈ op.invert.usedQubits.keys ↔ q ∈ op.usedQubits.keys
  | .standard g => mem_ownQubits_invert (.standard g)
  | .symbolic g => mem_ownQubits_invert (.symbolic g)
  | .nonUnitary _ => Iff.rfl
  | .conditioned op c => mem_ownQubits_invert (.conditioned op c)
  | .compound ops => by
      change q ∈ (usedQubitsAll (invertEach ops).reverse).keys ↔ q ∈ (usedQubitsAll ops).keys
      rw [mem_usedQubitsAll, ← mem_usedQubitsAll_invertEach ops, mem_usedQubitsAll]
      simp only [List.mem_reverse]

theorem mem_usedQubitsAll_invertEach {q : Nat} : ∀ ops : List (Operation S),
    q ∈ (usedQubitsAll (invertEach ops)).keys ↔ q ∈ (usedQubitsAll ops).keys
  | [] => Iff.rfl
  | op :: ops => by
      rw [invertEach, usedQubitsAll, usedQubitsAll, SortedSet.mem_keys_union,
        SortedSet.mem_keys_union, mem_usedQubits_invert op, mem_usedQubitsAll_invertEach ops]

end

theorem kind_invert_eq_barrier_iff (op : Operation S) :
    op.invert.kind = .barrier ↔ op.kind = .barrier := by
  cases op with
  | standard g => exact Gate.inverse_eq_barrier_iff
  | symbolic g => exact Gate.inverse_eq_barrier_iff
  | nonUnitary e => rfl
  | conditioned op c => rfl
  | compound ops => rfl

end Operation

end QuantumCircuit
