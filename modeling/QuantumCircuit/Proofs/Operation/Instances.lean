import QuantumCircuit.Proofs.Operation.Adjoint

/-!
# Instances of adjoints

Binding variables commutes with changing signs and with adding numbers, if the arithmetic is exact:
a term with a bound variable joins the constant, and one that stays is merged with the others, with
either sign.  Inverting asks nothing else of parameters, so an instance of an adjoint is the adjoint
of an instance, whether a parameter stays an expression or becomes a number.
-/

namespace QuantumCircuit

/-- What it takes for signs to go through sums and products, and for sums not to depend on the order
of what is added. -/
structure Scalar.ExactSums (S : Type) [Scalar S] : Prop extends Scalar.ExactSigns S where
  /-- A sum has the opposite sign if both of its parts have. -/
  neg_add : ∀ x y : S, -(x + y) = -x + -y
  /-- A product has the opposite sign if its first factor has. -/
  neg_mul : ∀ x y : S, -x * y = -(x * y)
  /-- Numbers can be added in either order. -/
  add_right_comm : ∀ x y z : S, x + y + z = x + z + y
  /-- Zero has no sign. -/
  isZero_neg : ∀ x : S, Scalar.isZero (-x) = Scalar.isZero x

variable {S : Type} [Scalar S]

/-! ## Expressions -/

namespace Expression

/-- Terms are merged with either sign. -/
theorem insertTerm_neg (exact : Scalar.ExactSums S) (k : S) (x : String) (terms : List (Term S)) :
    insertTerm (-k) x (terms.map Term.neg) = (insertTerm k x terms).map Term.neg := by
  induction terms with
  | nil =>
      simp only [insertTerm, List.map_nil, exact.isZero_neg]
      split_ifs <;> rfl
  | cons t rest ih =>
      have name : t.neg.name = t.name := rfl
      have sum : t.neg.coefficient + -k = -(t.coefficient + k) := (exact.neg_add _ _).symm
      simp only [insertTerm, List.map_cons, name]
      cases compare x t.name with
      | lt =>
          simp only [exact.isZero_neg]
          split_ifs <;> rfl
      | eq =>
          simp only [sum, exact.isZero_neg]
          split_ifs <;> rfl
      | gt => exact congrArg (t.neg :: ·) ih

theorem instantiateTerm_neg (exact : Scalar.ExactSums S) (a : Assignment S) (e : Expression S)
    (t : Term S) : instantiateTerm a e.neg t.neg = (instantiateTerm a e t).neg := by
  have name : t.neg.name = t.name := rfl
  unfold instantiateTerm
  rw [name, neg_eq exact.toExactSigns, neg_eq exact.toExactSigns]
  cases a.value? t.name with
  | none => exact congrArg (Expression.mk · (-e.constant)) (insertTerm_neg exact _ _ _)
  | some v =>
      refine congrArg (Expression.mk (e.terms.map Term.neg)) ?_
      calc
        -e.constant + -t.coefficient * v = -e.constant + -(t.coefficient * v) := by
          rw [exact.neg_mul]
        _ = -(e.constant + t.coefficient * v) := (exact.neg_add _ _).symm

theorem instantiate_neg (exact : Scalar.ExactSums S) (e : Expression S) (a : Assignment S) :
    e.neg.instantiate a = (e.instantiate a).neg := by
  have start : ofConstant (-e.constant) = (ofConstant e.constant).neg := by
    rw [neg_eq exact.toExactSigns]
    rfl
  rw [instantiate, neg_eq exact.toExactSigns, List.foldl_map, start]
  exact List.foldl_hom neg (instantiateTerm_neg exact a)

theorem instantiateTerm_shift (exact : Scalar.ExactSums S) (a : Assignment S) (e : Expression S)
    (k : S) (t : Term S) :
    instantiateTerm a (e.shift k) t = (instantiateTerm a e t).shift k := by
  unfold instantiateTerm
  cases a.value? t.name with
  | none => rfl
  | some v => exact congrArg (Expression.mk e.terms) (exact.add_right_comm _ _ _)

theorem instantiate_shift (exact : Scalar.ExactSums S) (e : Expression S) (k : S)
    (a : Assignment S) : (e.shift k).instantiate a = (e.instantiate a).shift k := by
  change e.terms.foldl (instantiateTerm a) ((ofConstant e.constant).shift k) = _
  exact List.foldl_hom (shift · k) fun acc t => instantiateTerm_shift exact a acc k t

end Expression

/-! ## Parameters and gates -/

namespace Parameter

theorem ofExpression_neg (signs : Scalar.ExactSigns S) (e : Expression S) :
    ofExpression e.neg = (ofExpression e).negated := by
  have same : e.neg.isConstant = e.isConstant := by
    rw [Expression.neg_eq signs, Expression.isConstant, List.isEmpty_map, Expression.isConstant]
  have constant : e.neg.constant = -e.constant := by rw [Expression.neg_eq signs]
  rw [ofExpression, ofExpression, same, constant]
  split_ifs <;> rfl

theorem ofExpression_shift (e : Expression S) (k : S) :
    ofExpression (e.shift k) = (ofExpression e).shifted k := by
  have same : (e.shift k).isConstant = e.isConstant := rfl
  rw [ofExpression, ofExpression, same]
  split_ifs <;> rfl

theorem instantiate_negated (exact : Scalar.ExactSums S) (a : Assignment S) (p : Parameter S) :
    p.negated.instantiate a = (p.instantiate a).negated := by
  cases p with
  | number v => rfl
  | symbol e =>
      calc
        ofExpression (e.neg.instantiate a) = ofExpression (e.instantiate a).neg := by
          rw [Expression.instantiate_neg exact]
        _ = (ofExpression (e.instantiate a)).negated := ofExpression_neg exact.toExactSigns _

theorem instantiate_shifted (exact : Scalar.ExactSums S) (a : Assignment S) (p : Parameter S)
    (k : S) : (p.shifted k).instantiate a = (p.instantiate a).shifted k := by
  cases p with
  | number v => rfl
  | symbol e =>
      calc
        ofExpression ((e.shift k).instantiate a) = ofExpression ((e.instantiate a).shift k) := by
          rw [Expression.instantiate_shift exact]
        _ = (ofExpression (e.instantiate a)).shifted k := ofExpression_shift _ _

end Parameter

namespace Gate

/-- The rules for the parameters of an adjoint go through every map of parameters that keeps signs
and sums. -/
theorem invertParams_map {P Q : Type} [GateParameter S P] [GateParameter S Q] {f : P → Q}
    (negated : ∀ p, f (GateParameter.negated p) = GateParameter.negated (f p))
    (shifted : ∀ p k, f (GateParameter.shifted p k) = GateParameter.shifted (f p) k)
    (kind : OpKind) (params : List P) :
    invertParams kind (params.map f) = (invertParams kind params).map f := by
  cases kind with
  | u =>
      rcases params with _ | ⟨theta, _ | ⟨phi, _ | ⟨lambda, _ | ⟨more, rest⟩⟩⟩⟩
      case cons.cons.cons.nil =>
        simp only [invertParams, List.map_cons, List.map_nil, negated]
      all_goals rfl
  | u2 =>
      rcases params with _ | ⟨phi, _ | ⟨lambda, _ | ⟨more, rest⟩⟩⟩
      case cons.cons.nil =>
        simp only [invertParams, List.map_cons, List.map_nil, negated, shifted]
      all_goals rfl
  | p | rx | ry | rz | rxx | ryy | rzz | rzx | xxMinusYY | xxPlusYY =>
      rcases params with _ | ⟨theta, rest⟩
      · rfl
      · exact congrArg (· :: rest.map f) (negated theta).symm
  | _ => rfl

theorem invert_instantiate (exact : Scalar.ExactSums S) (a : Assignment S)
    (g : Gate (Parameter S)) : (g.instantiate a).invert = g.invert.instantiate a :=
  congrArg (Gate.mk _ _ _) (invertParams_map (Parameter.instantiate_negated exact a)
    (Parameter.instantiate_shifted exact a) g.kind g.params)

end Gate

/-! ## Operations -/

namespace Operation

theorem instantiateAll_eq_map (a : Assignment S) (ops : List (Operation S)) :
    instantiateAll a ops = ops.map (instantiate a) := by
  induction ops with
  | nil => rfl
  | cons op ops ih => exact congrArg (op.instantiate a :: ·) ih

theorem instantiateAll_reverse (a : Assignment S) (ops : List (Operation S)) :
    instantiateAll a ops.reverse = (instantiateAll a ops).reverse := by
  rw [instantiateAll_eq_map, instantiateAll_eq_map, List.map_reverse]

mutual

/-- The adjoint of an instance is the instance of the adjoint.  Under a condition nothing is bound,
neither before nor after. -/
theorem invert_instantiate (exact : Scalar.ExactSums S) (a : Assignment S) :
    ∀ op : Operation S, (op.instantiate a).invert = op.invert.instantiate a
  | .standard _ => rfl
  | .symbolic g => congrArg symbolic (Gate.invert_instantiate exact a g)
  | .nonUnitary _ => rfl
  | .conditioned _ _ => rfl
  | .compound ops => by
      change compound (invertEach (instantiateAll a ops)).reverse =
        compound (instantiateAll a (invertEach ops).reverse)
      rw [invertEach_instantiateAll exact a ops, instantiateAll_reverse]

theorem invertEach_instantiateAll (exact : Scalar.ExactSums S) (a : Assignment S) :
    ∀ ops : List (Operation S),
      invertEach (instantiateAll a ops) = instantiateAll a (invertEach ops)
  | [] => rfl
  | op :: ops => congrArg₂ List.cons (invert_instantiate exact a op)
      (invertEach_instantiateAll exact a ops)

end

theorem invertAll_instantiateAll (exact : Scalar.ExactSums S) (a : Assignment S)
    (ops : List (Operation S)) :
    invertAll (instantiateAll a ops) = instantiateAll a (invertAll ops) := by
  rw [invertAll, invertAll, invertEach_instantiateAll exact, instantiateAll_reverse]

end Operation

end QuantumCircuit
