/-!
# Kinds of operations

Every operation has a kind: one of 32 gates, a barrier, a block, a measurement, a reset, or a
condition on classical bits.  A kind fixes the canonical name, the number of targets and angles,
and, where the adjoint of a gate is another gate of fixed kind, that kind.
-/

namespace QuantumCircuit

/-- The kind of an operation. -/
inductive OpKind where
  /-- The identity. -/
  | i
  /-- A barrier, which keeps operations from moving past it. -/
  | barrier
  /-- The Hadamard gate. -/
  | h
  /-- The Pauli X gate. -/
  | x
  /-- The Pauli Y gate. -/
  | y
  /-- The Pauli Z gate. -/
  | z
  /-- The square root of Z. -/
  | s
  /-- The adjoint of `s`. -/
  | sdg
  /-- The fourth root of Z. -/
  | t
  /-- The adjoint of `t`. -/
  | tdg
  /-- The X rotation by a quarter turn. -/
  | v
  /-- The adjoint of `v`. -/
  | vdg
  /-- The square root of X. -/
  | sx
  /-- The adjoint of `sx`. -/
  | sxdg
  /-- The general gate on one qubit, with three angles. -/
  | u
  /-- The general gate with a polar angle of a quarter turn, with two angles. -/
  | u2
  /-- The phase gate. -/
  | p
  /-- The rotation about the X axis. -/
  | rx
  /-- The rotation about the Y axis. -/
  | ry
  /-- The rotation about the Z axis. -/
  | rz
  /-- The exchange of two qubits. -/
  | swap
  /-- The exchange of two qubits with a phase. -/
  | iswap
  /-- The adjoint of `iswap`. -/
  | iswapdg
  /-- The Peres gate. -/
  | peres
  /-- The adjoint of `peres`. -/
  | peresdg
  /-- Two controlled X gates in opposite directions. -/
  | dcx
  /-- The echoed cross-resonance gate. -/
  | ecr
  /-- The rotation about XX. -/
  | rxx
  /-- The rotation about YY. -/
  | ryy
  /-- The rotation about ZZ. -/
  | rzz
  /-- The rotation about ZX. -/
  | rzx
  /-- The XX−YY interaction, with two angles. -/
  | xxMinusYY
  /-- The XX+YY interaction, with two angles. -/
  | xxPlusYY
  /-- A block of operations. -/
  | compound
  /-- A measurement. -/
  | measure
  /-- A reset to the zero state. -/
  | reset
  /-- An operation under a condition on classical bits. -/
  | classicControlled
deriving DecidableEq, Repr, Inhabited

namespace OpKind

/-- All kinds. -/
def all : List OpKind :=
  [i, barrier, h, x, y, z, s, sdg, t, tdg, v, vdg, sx, sxdg, u, u2, p, rx, ry, rz, swap, iswap,
    iswapdg, peres, peresdg, dcx, ecr, rxx, ryy, rzz, rzx, xxMinusYY, xxPlusYY, compound, measure,
    reset, classicControlled]

/-- No kind is missing from the list. -/
theorem mem_all (k : OpKind) : k ∈ all := by
  cases k <;> decide

/-- The canonical name. -/
def name : OpKind → String
  | i => "i"
  | barrier => "barrier"
  | h => "h"
  | x => "x"
  | y => "y"
  | z => "z"
  | s => "s"
  | sdg => "sdg"
  | t => "t"
  | tdg => "tdg"
  | v => "v"
  | vdg => "vdg"
  | sx => "sx"
  | sxdg => "sxdg"
  | u => "u"
  | u2 => "u2"
  | p => "p"
  | rx => "rx"
  | ry => "ry"
  | rz => "rz"
  | swap => "swap"
  | iswap => "iswap"
  | iswapdg => "iswapdg"
  | peres => "peres"
  | peresdg => "peresdg"
  | dcx => "dcx"
  | ecr => "ecr"
  | rxx => "rxx"
  | ryy => "ryy"
  | rzz => "rzz"
  | rzx => "rzx"
  | xxMinusYY => "xx_minus_yy"
  | xxPlusYY => "xx_plus_yy"
  | compound => "compound"
  | measure => "measure"
  | reset => "reset"
  | classicControlled => "classic_controlled"

/-- The tag by which data files name a kind. -/
def tag : OpKind → String
  | i => "I"
  | barrier => "Barrier"
  | h => "H"
  | x => "X"
  | y => "Y"
  | z => "Z"
  | s => "S"
  | sdg => "Sdg"
  | t => "T"
  | tdg => "Tdg"
  | v => "V"
  | vdg => "Vdg"
  | sx => "SX"
  | sxdg => "SXdg"
  | u => "U"
  | u2 => "U2"
  | p => "P"
  | rx => "RX"
  | ry => "RY"
  | rz => "RZ"
  | swap => "SWAP"
  | iswap => "ISWAP"
  | iswapdg => "ISWAPdg"
  | peres => "Peres"
  | peresdg => "Peresdg"
  | dcx => "DCX"
  | ecr => "ECR"
  | rxx => "RXX"
  | ryy => "RYY"
  | rzz => "RZZ"
  | rzx => "RZX"
  | xxMinusYY => "XXminusYY"
  | xxPlusYY => "XXplusYY"
  | compound => "Compound"
  | measure => "Measure"
  | reset => "Reset"
  | classicControlled => "ClassicControlled"

/-- The kind of a tag. -/
def ofTag? (text : String) : Option OpKind :=
  all.find? fun k => k.tag == text

/-- A tag names its kind. -/
@[simp]
theorem ofTag?_tag (k : OpKind) : ofTag? k.tag = some k := by
  cases k <;> decide

/-- Names that stand for a kind beside the canonical one. -/
def aliases : List (String × OpKind) :=
  [("id", i), ("u3", u), ("phase", p)]

/-- The kind of a name or alias; upper and lower case of the ASCII letters are not told apart. -/
def ofName? (text : String) : Option OpKind :=
  let lower := text.map Char.toLower
  match aliases.lookup lower with
  | some k => some k
  | none => all.find? fun k => k.name == lower

/-- The number of targets; none for the kinds whose width is not fixed. -/
def targetCount? : OpKind → Option Nat
  | barrier | compound | measure | reset | classicControlled => none
  | swap | iswap | iswapdg | peres | peresdg | dcx | ecr | rxx | ryy | rzz | rzx | xxMinusYY
  | xxPlusYY => some 2
  | _ => some 1

/-- The number of angles. -/
def paramCount : OpKind → Nat
  | u => 3
  | u2 | xxMinusYY | xxPlusYY => 2
  | p | rx | ry | rz | rxx | ryy | rzz | rzx => 1
  | _ => 0

/-- Whether the kind is a unitary gate of fixed width. -/
def isGate (k : OpKind) : Bool :=
  k.targetCount?.isSome

/-- The kind of the adjoint, if that is fixed by the kind alone.  Gates with angles keep their
kind: inverting one changes the angles. -/
def inverse : OpKind → OpKind
  | s => sdg
  | sdg => s
  | t => tdg
  | tdg => t
  | v => vdg
  | vdg => v
  | sx => sxdg
  | sxdg => sx
  | iswap => iswapdg
  | iswapdg => iswap
  | peres => peresdg
  | peresdg => peres
  | k => k

/-- Taking the adjoint kind twice changes nothing. -/
@[simp]
theorem inverse_inverse (k : OpKind) : k.inverse.inverse = k := by
  cases k <;> rfl

end OpKind

end QuantumCircuit
