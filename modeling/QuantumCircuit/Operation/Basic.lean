import QuantumCircuit.Expression
import QuantumCircuit.Registers.Basic

/-!
# Operations

An operation is a gate with numbers as parameters, a gate with expressions among its parameters,
a measurement or reset, an operation under a condition on classical bits, or a block of
operations.  Conditions and blocks nest, so functions on operations come in pairs: one on an
operation, and one on a list of operations.

Nothing is checked here.  The number of targets and parameters, and the range of the operands, are
checked where a circuit takes a gate in.
-/

namespace QuantumCircuit

/-- A gate: its kind, controls, targets and parameters. -/
structure Gate (P : Type) where
  /-- The kind. -/
  kind : OpKind
  /-- The controls. -/
  controls : Controls
  /-- The targets. -/
  targets : List Nat
  /-- The parameters. -/
  params : List P

/-- A measurement of each target into the classical bit at the same position, or a reset of the
targets. -/
structure NonUnitary where
  /-- The kind. -/
  kind : OpKind
  /-- The qubits that are measured or reset. -/
  targets : List Nat
  /-- The classical bits that are written. -/
  clbits : List Nat
deriving DecidableEq

/-- How a classical value is compared with the expected one. -/
inductive Comparison where
  /-- Equal. -/
  | eq
  /-- Not equal. -/
  | neq
  /-- Less. -/
  | lt
  /-- Less or equal. -/
  | leq
  /-- Greater. -/
  | gt
  /-- Greater or equal. -/
  | geq
deriving DecidableEq, Repr

namespace Comparison

/-- Equality is the comparison that is meant if none is given. -/
instance : Inhabited Comparison := ⟨eq⟩

/-- All comparisons. -/
def all : List Comparison :=
  [eq, neq, lt, leq, gt, geq]

/-- Whether the comparison holds between two values. -/
def holds (c : Comparison) (lhs rhs : Nat) : Bool :=
  match c with
  | eq => lhs == rhs
  | neq => lhs != rhs
  | lt => lhs < rhs
  | leq => lhs ≤ rhs
  | gt => rhs < lhs
  | geq => rhs ≤ lhs

/-- The sign of the comparison. -/
def text : Comparison → String
  | eq => "=="
  | neq => "!="
  | lt => "<"
  | leq => "<="
  | gt => ">"
  | geq => ">="

end Comparison

/-- A condition on the value of a range of classical bits. -/
structure Condition where
  /-- The bits whose value is compared. -/
  register : Register
  /-- The value it is compared with. -/
  value : Nat
  /-- The comparison. -/
  comparison : Comparison
deriving DecidableEq

/-- An instruction of a circuit. -/
inductive Operation (S : Type) where
  /-- A gate whose parameters are numbers, or a barrier. -/
  | standard (gate : Gate S)
  /-- A gate with expressions among its parameters. -/
  | symbolic (gate : Gate (Parameter S))
  /-- A measurement or a reset. -/
  | nonUnitary (effect : NonUnitary)
  /-- An operation under a condition. -/
  | conditioned (op : Operation S) (condition : Condition)
  /-- A block. -/
  | compound (ops : List (Operation S))

instance {S : Type} : Inhabited (Operation S) := ⟨.compound []⟩

namespace NonUnitary

/-- A measurement of qubits into classical bits. -/
def ofMeasure (targets clbits : List Nat) : NonUnitary :=
  ⟨.measure, targets, clbits⟩

/-- A reset of qubits. -/
def ofReset (targets : List Nat) : NonUnitary :=
  ⟨.reset, targets, []⟩

end NonUnitary

namespace Gate

variable {P : Type}

/-- The qubits of the controls, in the order of the controls, and then the targets. -/
def operands (g : Gate P) : List Nat :=
  g.controls.keys.map (·.qubit) ++ g.targets

/-- The name: one letter for each control, and the name of the kind. -/
def name (g : Gate P) : String :=
  String.ofList (List.replicate g.controls.size 'c') ++ g.kind.name

/-- Equality of gates, with parameters compared as their type compares them. -/
def beq [BEq P] (g h : Gate P) : Bool :=
  g.kind == h.kind && decide (g.controls = h.controls) && g.targets == h.targets
    && g.params == h.params

instance [BEq P] : BEq (Gate P) := ⟨beq⟩

variable {S : Type} [Scalar S]

/-- The variables of the parameters, one by one. -/
def variableNames (g : Gate (Parameter S)) : List String :=
  g.params.flatMap Parameter.variableNames

/-- Whether every parameter is a number. -/
def isFullyInstantiated (g : Gate (Parameter S)) : Bool :=
  g.params.all Parameter.isNumber

/-- Replaces the variables that an assignment binds in every parameter. -/
def instantiate (a : Assignment S) (g : Gate (Parameter S)) : Gate (Parameter S) :=
  { g with params := g.params.map (Parameter.instantiate a) }

end Gate

namespace Operation

variable {S : Type}

/-- The kind. -/
def kind : Operation S → OpKind
  | .standard g => g.kind
  | .symbolic g => g.kind
  | .nonUnitary e => e.kind
  | .conditioned _ _ => .classicControlled
  | .compound _ => .compound

/-- The name: that of the gate or of the kind, and under a condition a mark in front. -/
def name : Operation S → String
  | .standard g => g.name
  | .symbolic g => g.name
  | .nonUnitary e => e.kind.name
  | .conditioned op _ => "c_" ++ op.name
  | .compound _ => OpKind.compound.name

/-- The controls of a gate, also of one under a condition. -/
def controls : Operation S → Controls
  | .standard g => g.controls
  | .symbolic g => g.controls
  | .nonUnitary _ => .empty
  | .conditioned op _ => op.controls
  | .compound _ => .empty

/-- The targets; a block has none of its own. -/
def targets : Operation S → List Nat
  | .standard g => g.targets
  | .symbolic g => g.targets
  | .nonUnitary e => e.targets
  | .conditioned op _ => op.targets
  | .compound _ => []

/-- Replaces the controls of a gate, also of one under a condition. -/
def setControls (controls : Controls) : Operation S → Operation S
  | .standard g => .standard { g with controls }
  | .symbolic g => .symbolic { g with controls }
  | .nonUnitary e => .nonUnitary e
  | .conditioned op c => .conditioned (op.setControls controls) c
  | .compound ops => .compound ops

/-- Replaces the targets; a block stays as it is. -/
def setTargets (targets : List Nat) : Operation S → Operation S
  | .standard g => .standard { g with targets }
  | .symbolic g => .symbolic { g with targets }
  | .nonUnitary e => .nonUnitary { e with targets }
  | .conditioned op c => .conditioned (op.setTargets targets) c
  | .compound ops => .compound ops

/-- Whether there is a control. -/
def isControlled (op : Operation S) : Bool :=
  !op.controls.isEmpty

mutual

/-- Whether the operation is a gate or a block of gates. -/
def isUnitary : Operation S → Bool
  | .standard _ => true
  | .symbolic _ => true
  | .nonUnitary _ => false
  | .conditioned _ _ => false
  | .compound ops => allUnitary ops
termination_by structural op => op

/-- Whether all operations of a list are gates or blocks of gates. -/
def allUnitary : List (Operation S) → Bool
  | [] => true
  | op :: ops => op.isUnitary && allUnitary ops
termination_by structural ops => ops

end

mutual

/-- Whether a symbolic gate occurs, also under conditions and in blocks. -/
def hasSymbolic : Operation S → Bool
  | .standard _ => false
  | .symbolic _ => true
  | .nonUnitary _ => false
  | .conditioned op _ => op.hasSymbolic
  | .compound ops => anySymbolic ops
termination_by structural op => op

/-- Whether a symbolic gate occurs in a list. -/
def anySymbolic : List (Operation S) → Bool
  | [] => false
  | op :: ops => op.hasSymbolic || anySymbolic ops
termination_by structural ops => ops

end

section Equality

variable [Scalar S]

mutual

/-- Equality of operations, with numbers compared as scalars compare. -/
def beq : Operation S → Operation S → Bool
  | .standard g, .standard h => g == h
  | .symbolic g, .symbolic h => g == h
  | .nonUnitary e, .nonUnitary f => e == f
  | .conditioned op c, .conditioned other d => op.beq other && c == d
  | .compound ops, .compound others => beqAll ops others
  | _, _ => false
termination_by structural op => op

/-- Equality of lists of operations. -/
def beqAll : List (Operation S) → List (Operation S) → Bool
  | [], [] => true
  | op :: ops, other :: others => op.beq other && beqAll ops others
  | _, _ => false
termination_by structural ops => ops

end

instance : BEq (Operation S) := ⟨beq⟩

end Equality

section Variables

variable [Scalar S]

mutual

/-- The variables of all parameters, also under conditions and in blocks. -/
def variableNames : Operation S → List String
  | .standard _ => []
  | .symbolic g => g.variableNames
  | .nonUnitary _ => []
  | .conditioned op _ => op.variableNames
  | .compound ops => allVariableNames ops
termination_by structural op => op

/-- The variables of all parameters in a list. -/
def allVariableNames : List (Operation S) → List String
  | [] => []
  | op :: ops => op.variableNames ++ allVariableNames ops
termination_by structural ops => ops

end

mutual

/-- Replaces the variables that an assignment binds, also in blocks.  A symbolic gate stays one
even if only numbers are left, and an operation under a condition is left alone. -/
def instantiate (a : Assignment S) : Operation S → Operation S
  | .standard g => .standard g
  | .symbolic g => .symbolic (g.instantiate a)
  | .nonUnitary e => .nonUnitary e
  | .conditioned op c => .conditioned op c
  | .compound ops => .compound (instantiateAll a ops)
termination_by structural op => op

/-- Replaces the variables that an assignment binds in each operation of a list. -/
def instantiateAll (a : Assignment S) : List (Operation S) → List (Operation S)
  | [] => []
  | op :: ops => op.instantiate a :: instantiateAll a ops
termination_by structural ops => ops

end

end Variables

end Operation

end QuantumCircuit
