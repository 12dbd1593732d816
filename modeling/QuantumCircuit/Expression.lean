import QuantumCircuit.Scalar
import QuantumCircuit.SortedMap
import QuantumCircuit.Decimal.Numeral

/-!
# Linear expressions and gate parameters

An `Expression` is a constant plus a sum of coefficients times variables.  Terms are merged when
they are added and vanish when they cancel, so expressions built from the operations of this file
list their variables in ascending order, each once.

A gate parameter, `Parameter`, is a number or an expression.  Both can be negated and shifted,
which is all that inverting a gate asks of a parameter (`GateParameter`).
-/

namespace QuantumCircuit

/-- A coefficient times a variable. -/
structure Term (S : Type) where
  /-- The factor. -/
  coefficient : S
  /-- The name of the variable. -/
  name : String
deriving DecidableEq

/-- A constant plus a sum of terms. -/
structure Expression (S : Type) where
  /-- The terms. -/
  terms : List (Term S)
  /-- The constant. -/
  constant : S
deriving DecidableEq

/-- Values for some of the variables. -/
structure Assignment (S : Type) where
  /-- The value of a variable, if it has one. -/
  value? : String → Option S

/-- The assignment of a list; a later value for a name replaces an earlier one. -/
def Assignment.ofList {S : Type} (l : List (String × S)) : Assignment S :=
  ⟨(SortedMap.ofList l).find?⟩

namespace Expression

variable {S : Type} [Scalar S]

/-- The expression without terms. -/
def ofConstant (c : S) : Expression S :=
  ⟨[], c⟩

/-- The expression that is one variable. -/
def ofVariable (x : String) : Expression S :=
  ⟨[⟨Scalar.one, x⟩], Scalar.zero⟩

/-- The names of the variables, term by term. -/
def variableNames (e : Expression S) : List String :=
  e.terms.map (·.name)

/-- Whether there are no terms. -/
def isConstant (e : Expression S) : Bool :=
  e.terms.isEmpty

/-- Adds `k` times `x` to ascending terms: merged with the term of the same variable, and left out
if the coefficient becomes zero. -/
def insertTerm (k : S) (x : String) : List (Term S) → List (Term S)
  | [] => if Scalar.isZero k then [] else [⟨k, x⟩]
  | t :: rest =>
      match compare x t.name with
      | .lt => if Scalar.isZero k then t :: rest else ⟨k, x⟩ :: t :: rest
      | .eq =>
          let sum := t.coefficient + k
          if Scalar.isZero sum then rest else ⟨sum, x⟩ :: rest
      | .gt => t :: insertTerm k x rest

/-- Adds `k` times `x`. -/
def addTerm (e : Expression S) (k : S) (x : String) : Expression S :=
  { e with terms := insertTerm k x e.terms }

/-- Adds a number. -/
def shift (e : Expression S) (k : S) : Expression S :=
  { e with constant := e.constant + k }

/-- Multiplies by a number; by zero gives the constant zero. -/
def scale (e : Expression S) (k : S) : Expression S :=
  if Scalar.isZero k then ofConstant Scalar.zero
  else ⟨e.terms.map fun t => { t with coefficient := t.coefficient * k }, e.constant * k⟩

/-- The sum of two expressions: the constants, and then the terms of the second one by one. -/
def add (e f : Expression S) : Expression S :=
  f.terms.foldl (fun acc t => acc.addTerm t.coefficient t.name) (e.shift f.constant)

/-- The expression times minus one. -/
def neg (e : Expression S) : Expression S :=
  e.scale (-Scalar.one)

/-- The difference of two expressions. -/
def sub (e f : Expression S) : Expression S :=
  e.add f.neg

instance : Add (Expression S) := ⟨add⟩

instance : Sub (Expression S) := ⟨sub⟩

instance : Neg (Expression S) := ⟨neg⟩

/-- The value under an assignment, if it binds every variable; terms are added in order. -/
def evaluate (e : Expression S) (a : Assignment S) : Option S :=
  e.terms.foldlM (fun acc t => (a.value? t.name).map fun v => acc + t.coefficient * v) e.constant

/-- Puts a term's value into the constant if the assignment binds it, and keeps it otherwise. -/
def instantiateTerm (a : Assignment S) (e : Expression S) (t : Term S) : Expression S :=
  match a.value? t.name with
  | some v => e.shift (t.coefficient * v)
  | none => e.addTerm t.coefficient t.name

/-- Replaces the variables that an assignment binds by their values. -/
def instantiate (e : Expression S) (a : Assignment S) : Expression S :=
  e.terms.foldl (instantiateTerm a) (ofConstant e.constant)

/-- Equality of expressions as the scalars compare: term by term, and the constants. -/
def beq (e f : Expression S) : Bool :=
  e.terms.length == f.terms.length
    && (e.terms.zip f.terms).all (fun (s, t) => s.coefficient == t.coefficient && s.name == t.name)
    && e.constant == f.constant

instance : BEq (Expression S) := ⟨beq⟩

/-! ## Text -/

/-- The text of a term, which is the first of its expression or not: its sign, its coefficient
unless that is one up to rounding, and its variable. -/
def termText (first : Bool) (t : Term Float) : String :=
  let negative := t.coefficient < 0.0
  let sign := if first then (if negative then "-" else "") else if negative then " - " else " + "
  let c := t.coefficient.abs
  let factor :=
    if (c - 1.0).abs > 2.220446049250313e-16 then NumberStyle.plainText c ++ "*" else ""
  sign ++ factor ++ t.name

/-- The text of an expression: its terms, and its constant unless that is zero beside terms. -/
def text (e : Expression Float) : String :=
  match e.terms with
  | [] => NumberStyle.plainText e.constant
  | t :: rest =>
      let terms := termText true t ++ String.join (rest.map (termText false))
      if e.constant != 0.0 then
        terms ++ (if e.constant < 0.0 then " - " else " + ")
          ++ NumberStyle.plainText e.constant.abs
      else terms

end Expression

/-- A gate parameter. -/
inductive Parameter (S : Type) where
  /-- A number. -/
  | number (value : S)
  /-- An expression that is to be evaluated later. -/
  | symbol (expression : Expression S)
deriving DecidableEq

/-- What inverting a gate asks of its parameters. -/
class GateParameter (S : outParam Type) (P : Type) where
  /-- The parameter with the opposite sign. -/
  negated : P → P
  /-- The parameter plus a number. -/
  shifted : P → S → P

namespace Parameter

variable {S : Type} [Scalar S]

/-- The parameter of an expression: a number if there are no terms. -/
def ofExpression (e : Expression S) : Parameter S :=
  if e.isConstant then .number e.constant else .symbol e

/-- The parameter that is one variable. -/
def ofVariable (x : String) : Parameter S :=
  .symbol (Expression.ofVariable x)

/-- The number, if the parameter is one. -/
def number? : Parameter S → Option S
  | .number v => some v
  | .symbol _ => none

/-- Whether the parameter is a number. -/
def isNumber (p : Parameter S) : Bool :=
  p.number?.isSome

/-- The names of the variables. -/
def variableNames : Parameter S → List String
  | .number _ => []
  | .symbol e => e.variableNames

/-- Replaces the variables that an assignment binds; without variables left, a number remains. -/
def instantiate (a : Assignment S) : Parameter S → Parameter S
  | .number v => .number v
  | .symbol e => ofExpression (e.instantiate a)

/-- The parameter with the opposite sign. -/
def negated : Parameter S → Parameter S
  | .number v => .number (-v)
  | .symbol e => .symbol (-e)

/-- The parameter plus a number. -/
def shifted (p : Parameter S) (k : S) : Parameter S :=
  match p with
  | .number v => .number (v + k)
  | .symbol e => .symbol (e.shift k)

/-- Equality of parameters as the scalars compare. -/
def beq : Parameter S → Parameter S → Bool
  | .number v, .number w => v == w
  | .symbol e, .symbol f => e == f
  | _, _ => false

instance : BEq (Parameter S) := ⟨beq⟩

/-- The text of a parameter. -/
def text : Parameter Float → String
  | .number v => NumberStyle.plainText v
  | .symbol e => e.text

end Parameter

instance {S : Type} [Scalar S] : GateParameter S (Parameter S) where
  negated := Parameter.negated
  shifted := Parameter.shifted

/-- Numbers are parameters themselves. -/
instance (priority := low) scalarGateParameter {S : Type} [Scalar S] : GateParameter S S where
  negated x := -x
  shifted x k := x + k

end QuantumCircuit
