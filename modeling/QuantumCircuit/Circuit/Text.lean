import QuantumCircuit.Circuit.Basic
import QuantumCircuit.Operation.Text

/-!
# The text of a circuit

A circuit is shown line by line: its name as a comment, its registers, the initial layout, the
numbered operations, the output permutation, and the global phase.  What is empty or zero is left
out.
-/

namespace QuantumCircuit.Circuit

/-- A text with blanks in front, up to a length. -/
def padLeft (length : Nat) (text : String) : String :=
  String.ofList (List.replicate (length - text.length) ' ') ++ text

/-- A line for each register that is not empty, by ascending start.  The last index is one before
the end, and `maxIndex` if the end is zero. -/
def registerLines (kind letter : String) (regs : Registers) : List String :=
  ((Registers.sorted regs).filter fun e => e.2.size != 0).map fun e =>
    kind ++ " " ++ e.1 ++ "[" ++ toString e.2.size ++ "] \x7b" ++ letter ++ toString e.2.start
      ++ ".." ++ letter ++ toString (wrapIndex (e.2.stop + maxIndex)) ++ "\x7d"

/-- The lines of all registers: quantum, ancillary, classical. -/
def allRegisterLines {S : Type} (c : Circuit S) : List String :=
  registerLines "qreg" "q" c.qregs ++ registerLines "anc" "q" c.ancregs
    ++ registerLines "creg" "c" c.cregs

/-- The lines of a text, each with its end. -/
def joinLines (lines : List String) : String :=
  String.join (lines.map (· ++ "\n"))

/-- The text of the registers. -/
def registersText {S : Type} (c : Circuit S) : String :=
  joinLines c.allRegisterLines

/-- The text of a layout. -/
def layoutText (layout : Layout) : String :=
  " ".intercalate (layout.entries.map fun e => qubitText e.1 ++ "->" ++ qubitText e.2)

/-- The text of a circuit. -/
def text (c : Circuit Float) : String :=
  let opLines := c.ops.zipIdx.map fun e => padLeft 4 (toString e.2) ++ ": " ++ e.1.text
  joinLines <|
    (if c.name.isEmpty then [] else ["// " ++ c.name])
      ++ c.allRegisterLines
      ++ ["initial layout: " ++ layoutText c.initialLayout]
      ++ opLines
      ++ ["output permutation: " ++ layoutText c.outputPermutation]
      ++ (if c.globalPhase != 0.0 then
          ["global phase: " ++ NumberStyle.plainText c.globalPhase]
        else [])

end QuantumCircuit.Circuit
