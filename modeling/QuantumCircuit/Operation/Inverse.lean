import QuantumCircuit.Operation.Basic

/-!
# Adjoints

`invert` turns an operation into its adjoint.  A gate with angles changes its angles, a gate whose
adjoint is another gate changes its kind, a block is inverted one by one and reversed, and the
condition of an operation is kept.  Measurements and resets have no adjoint and stay as they are.
-/

namespace QuantumCircuit

namespace Gate

variable {S P : Type} [Scalar S] [GateParameter S P]

/-- Inverts the parameters of a gate that has its own rule for that, and is given with the number
of parameters the rule is for. -/
def invertParams (kind : OpKind) (params : List P) : List P :=
  match kind, params with
  | .u, [theta, phi, lambda] =>
      [GateParameter.negated theta, GateParameter.negated lambda, GateParameter.negated phi]
  | .u2, [phi, lambda] =>
      [GateParameter.shifted (GateParameter.negated lambda) (-Scalar.pi),
        GateParameter.shifted (GateParameter.negated phi) Scalar.pi]
  | .p, theta :: rest | .rx, theta :: rest | .ry, theta :: rest | .rz, theta :: rest
  | .rxx, theta :: rest | .ryy, theta :: rest | .rzz, theta :: rest | .rzx, theta :: rest
  | .xxMinusYY, theta :: rest | .xxPlusYY, theta :: rest => GateParameter.negated theta :: rest
  | _, params => params

/-- The targets of the adjoint: two controlled X gates in opposite directions change places. -/
def invertTargets (kind : OpKind) (targets : List Nat) : List Nat :=
  match kind, targets with
  | .dcx, [a, b] => [b, a]
  | _, targets => targets

/-- The adjoint of a gate. -/
def invert (g : Gate P) : Gate P :=
  { kind := g.kind.inverse
    controls := g.controls
    targets := invertTargets g.kind g.targets
    params := invertParams g.kind g.params }

end Gate

namespace Operation

variable {S : Type} [Scalar S]

mutual

/-- The adjoint of an operation. -/
def invert : Operation S → Operation S
  | .standard g => .standard g.invert
  | .symbolic g => .symbolic g.invert
  | .nonUnitary e => .nonUnitary e
  | .conditioned op c => .conditioned op.invert c
  | .compound ops => .compound (invertEach ops).reverse
termination_by structural op => op

/-- The adjoints of a list of operations, in the order of the list. -/
def invertEach : List (Operation S) → List (Operation S)
  | [] => []
  | op :: ops => op.invert :: invertEach ops
termination_by structural ops => ops

end

/-- The adjoints of a list of operations, in reverse order. -/
def invertAll (ops : List (Operation S)) : List (Operation S) :=
  (invertEach ops).reverse

end Operation

end QuantumCircuit
