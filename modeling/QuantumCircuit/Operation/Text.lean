import QuantumCircuit.Operation.Basic

/-!
# The text of an operation

A gate is shown as its name, its parameters in brackets, and its operands, controls first.  A
measurement adds an arrow and its bits, a condition stands in front of its operation, and a block
is put in braces.
-/

namespace QuantumCircuit

/-- Texts joined by a comma and a blank. -/
def commaList (texts : List String) : String :=
  ", ".intercalate texts

namespace Gate

/-- The text of a gate, given the texts of its parameters. -/
def textWith {P : Type} (paramText : P → String) (g : Gate P) : String :=
  let params := if g.params.isEmpty then "" else "(" ++ commaList (g.params.map paramText) ++ ")"
  g.name ++ params ++ " "
    ++ commaList (g.controls.keys.map Control.text ++ g.targets.map qubitText)

end Gate

/-- The text of a measurement or a reset. -/
def NonUnitary.text (e : NonUnitary) : String :=
  let clbits := if e.clbits.isEmpty then "" else " -> " ++ commaList (e.clbits.map clbitText)
  e.kind.name ++ " " ++ commaList (e.targets.map qubitText) ++ clbits

/-- The text of a condition. -/
def Condition.text (c : Condition) : String :=
  "if (c[" ++ toString c.register.start ++ ".." ++ toString c.register.stop ++ "] "
    ++ c.comparison.text ++ " " ++ toString c.value ++ ")"

namespace Operation

mutual

/-- The text of an operation. -/
def text : Operation Float → String
  | .standard g => g.textWith NumberStyle.plainText
  | .symbolic g => g.textWith Parameter.text
  | .nonUnitary e => e.text
  | .conditioned op c => c.text ++ " " ++ op.text
  | .compound ops => "compound \x7b" ++ ";".intercalate (texts ops) ++ " \x7d"
termination_by structural op => op

/-- The texts of a list of operations, each after a blank. -/
def texts : List (Operation Float) → List String
  | [] => []
  | op :: ops => (" " ++ op.text) :: texts ops
termination_by structural ops => ops

end

end Operation

end QuantumCircuit
