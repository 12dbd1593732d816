import QuantumCircuit.Operation.Qubits
import QuantumCircuit.Registers.Edit

/-!
# Circuits

A `Circuit` is a list of operations over named registers, together with the bookkeeping that ties
physical to logical qubits: the initial layout, the output permutation, and for each logical qubit
whether it is ancillary and whether it is garbage.

A step on a circuit has an `Outcome`: the circuit it leaves, and an answer or a failure.  The
circuit is part of the outcome also on failure, because a step may have changed it by then.
-/

namespace QuantumCircuit

/-- The settings from which a circuit is built. -/
structure Config where
  /-- The name of the circuit. -/
  name : String
  /-- The size of the first quantum register. -/
  numQubits : Nat
  /-- The size of the first classical register. -/
  numClbits : Nat
  /-- The seed of the circuit; zero leaves the choice to whoever draws from it. -/
  seed : Nat
  /-- The name of quantum registers that are not named. -/
  qregName : String
  /-- The name of the first classical register. -/
  cregName : String
  /-- The name of ancillary registers that are not named. -/
  ancregName : String
deriving DecidableEq

/-- The settings that are meant where nothing else is said. -/
def Config.default : Config :=
  ⟨"", 0, 0, 0, "q", "c", "anc"⟩

instance : Inhabited Config := ⟨Config.default⟩

/-- A quantum program. -/
structure Circuit (S : Type) where
  /-- The name. -/
  name : String
  /-- The operations in program order. -/
  ops : List (Operation S)
  /-- The number of qubits that are not ancillary. -/
  numQubits : Nat
  /-- The number of classical bits. -/
  numClbits : Nat
  /-- The number of ancillary qubits. -/
  numAncillae : Nat
  /-- The quantum registers. -/
  qregs : Registers
  /-- The classical registers. -/
  cregs : Registers
  /-- The ancillary registers. -/
  ancregs : Registers
  /-- The logical qubit that each physical qubit holds at the start. -/
  initialLayout : Layout
  /-- The logical qubit that each physical qubit holds at the end. -/
  outputPermutation : Layout
  /-- For each logical qubit, whether it is ancillary. -/
  ancillary : List Bool
  /-- For each logical qubit, whether it is garbage. -/
  garbage : List Bool
  /-- The variables that the operations refer to. -/
  variableNames : SortedSet String
  /-- The global phase. -/
  globalPhase : S
  /-- The name of quantum registers that are not named. -/
  qregName : String
  /-- The name of ancillary registers that are not named. -/
  ancregName : String
  /-- The seed. -/
  seed : Nat

/-- What a step on a circuit leaves and answers. -/
structure Outcome (S α : Type) where
  /-- The circuit after the step. -/
  circuit : Circuit S
  /-- The answer, or why there is none. -/
  answer : Except (Failure CircuitError) α

namespace Circuit

variable {S α β : Type}

/-! ## Outcomes -/

/-- The outcome of a step that is done. -/
def done (c : Circuit S) (a : α) : Outcome S α :=
  ⟨c, .ok a⟩

/-- The outcome of a step that is refused. -/
def refuse (c : Circuit S) (e : CircuitError) : Outcome S α :=
  ⟨c, .error (.refused e)⟩

/-- The outcome of a step that breaks off. -/
def fault (c : Circuit S) : Outcome S α :=
  ⟨c, .error .fault⟩

end Circuit

/-- Goes on with the circuit and the answer of a step that is done. -/
def Outcome.andThen {S α β : Type} (o : Outcome S α) (next : Circuit S → α → Outcome S β) :
    Outcome S β :=
  match o.answer with
  | .ok a => next o.circuit a
  | .error e => ⟨o.circuit, .error e⟩

namespace Circuit

variable {S : Type}

/-! ## Size -/

/-- The number of qubits, ancillary ones included. -/
def numTotalQubits (c : Circuit S) : Nat :=
  c.numQubits + c.numAncillae

/-- A list cut or filled up to a length. -/
def resize {α : Type} (l : List α) (length : Nat) (fill : α) : List α :=
  l.take length ++ List.replicate (length - l.length) fill

/-- Whether there are indices for `n` more qubits. -/
def hasRoomFor (c : Circuit S) (n : Nat) : Bool :=
  (index? n).isSome && c.numTotalQubits + n ≤ maxIndex + 1

/-- Registers in which the named one is `n` larger, or new at `start`. -/
def growRegister (regs : Registers) (name : String) (start n : Nat) : Registers :=
  match regs.find? name with
  | some r => regs.insert name ⟨r.start, wrapIndex (r.size + n)⟩
  | none => regs.insert name ⟨start, n⟩

/-- A layout with `n` more qubits from `start` on, each holding the logical qubit of its own
index. -/
def extendLayout (layout : Layout) (start n : Nat) : Layout :=
  (List.range' start n).foldr (fun q layout => layout.insert q q) layout

/-- Adds `n` qubits at the end under a register name. -/
def insertQubits (c : Circuit S) (n : Nat) (name : String) : Circuit S :=
  let total := c.numTotalQubits
  { c with
    qregs := growRegister c.qregs name total n
    initialLayout := extendLayout c.initialLayout total n
    outputPermutation := extendLayout c.outputPermutation total n
    numQubits := c.numQubits + n
    ancillary := resize c.ancillary (total + n) false
    garbage := resize c.garbage (total + n) false }

/-- Adds `n` ancillary qubits at the end under a register name. -/
def insertAncillae (c : Circuit S) (n : Nat) (name : String) : Circuit S :=
  let total := c.numTotalQubits
  { c with
    ancregs := growRegister c.ancregs name total n
    initialLayout := extendLayout c.initialLayout total n
    outputPermutation := extendLayout c.outputPermutation total n
    numAncillae := c.numAncillae + n
    ancillary := resize c.ancillary (total + n) true
    garbage := resize c.garbage (total + n) false }

/-- Adds `n` classical bits at the end under a register name. -/
def insertClbits (c : Circuit S) (n : Nat) (name : String) : Circuit S :=
  { c with
    cregs := c.cregs.insert name ⟨c.numClbits, n⟩
    numClbits := c.numClbits + n }

/-! ## Construction -/

variable [Scalar S]

/-- The circuit of some settings before its first registers are added. -/
def blank (config : Config) : Circuit S where
  name := config.name
  ops := []
  numQubits := 0
  numClbits := 0
  numAncillae := 0
  qregs := .empty
  cregs := .empty
  ancregs := .empty
  initialLayout := .empty
  outputPermutation := .empty
  ancillary := []
  garbage := []
  variableNames := .empty
  globalPhase := Scalar.zero
  qregName := config.qregName
  ancregName := config.ancregName
  seed := config.seed

/-- The circuit of some settings, with its first registers where they are not empty; none if there
are not enough indices for them. -/
def ofConfig? (config : Config) : Option (Circuit S) :=
  let c : Circuit S := blank config
  if c.hasRoomFor config.numQubits && (index? config.numClbits).isSome then
    let c := if 0 < config.numQubits then c.insertQubits config.numQubits config.qregName else c
    some <| if 0 < config.numClbits then c.insertClbits config.numClbits config.cregName else c
  else none

/-- The circuit with one quantum and one classical register of given sizes, and a seed. -/
def withSeed? (numQubits numClbits seed : Nat) : Option (Circuit S) :=
  ofConfig? { Config.default with numQubits, numClbits, seed }

/-- The circuit with one quantum and one classical register of given sizes. -/
def withSize? (numQubits numClbits : Nat) : Option (Circuit S) :=
  withSeed? numQubits numClbits 0

/-- The circuit without registers. -/
def new : Circuit S :=
  blank Config.default

instance : Inhabited (Circuit S) := ⟨new⟩

end Circuit

end QuantumCircuit
