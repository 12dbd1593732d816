import Mathlib.Data.List.Induction
import Mathlib.Tactic.SplitIfs
import QuantumCircuit.Circuit.Registers
import QuantumCircuit.Circuit.Strip

/-!
# Reachable circuits

A circuit is built from its settings and then goes through steps on its registers and qubits, and
through changes of its program.  A step that is refused or breaks off leaves the circuit of its
outcome.  `Reachable` is parametrised by the steps that are allowed, so that what depends on some
of the steps only can be stated for them.  Where a step can break what others keep, the points of a
run tell when: `throughout_iff` goes from a condition on single steps to one on whole runs.
-/

namespace QuantumCircuit

/-- A change of a circuit, with its arguments. -/
inductive Step (S : Type) where
  /-- `addQubitRegister`. -/
  | addQubitRegister (n : Nat) (name : String)
  /-- `addClassicalRegister`. -/
  | addClassicalRegister (n : Nat) (name : String)
  /-- `addAncillaryRegister`. -/
  | addAncillaryRegister (n : Nat) (name : String)
  /-- `addQubit`. -/
  | addQubit (logical physical : Nat) (output : Option Nat)
  /-- `addAncillaryQubit`. -/
  | addAncillaryQubit (physical : Nat) (output : Option Nat)
  /-- `removeQubit`. -/
  | removeQubit (logical : Nat)
  /-- `markAncillary`. -/
  | markAncillary (lo hi : Nat)
  /-- `markGarbage`. -/
  | markGarbage (lo hi : Nat)
  /-- `unifyRegisters`. -/
  | unifyRegisters (name : String)
  /-- `stripIdle`. -/
  | stripIdle (force closing : Bool)
  /-- Any change of the operations, the variables and the global phase. -/
  | program (ops : List (Operation S)) (variableNames : SortedSet String) (globalPhase : S)

variable {S : Type}

/-- The circuit after a step, also after one that fails. -/
def Step.run (c : Circuit S) : Step S → Circuit S
  | .addQubitRegister n name => (c.addQubitRegister n name).circuit
  | .addClassicalRegister n name => (c.addClassicalRegister n name).circuit
  | .addAncillaryRegister n name => (c.addAncillaryRegister n name).circuit
  | .addQubit logical physical output => (c.addQubit logical physical output).circuit
  | .addAncillaryQubit physical output => (c.addAncillaryQubit physical output).circuit
  | .removeQubit logical => (c.removeQubit logical).circuit
  | .markAncillary lo hi => (c.markAncillary lo hi).circuit
  | .markGarbage lo hi => (c.markGarbage lo hi).circuit
  | .unifyRegisters name => c.unifyRegisters name
  | .stripIdle force closing => (c.stripIdle force closing).circuit
  | .program ops variableNames globalPhase => { c with ops, variableNames, globalPhase }

/-- The circuit after some steps. -/
def Step.runAll (c : Circuit S) (steps : List (Step S)) : Circuit S :=
  steps.foldl run c

namespace Circuit

/-! ## Every point of a run -/

theorem runAll_concat (c : Circuit S) (steps : List (Step S)) (s : Step S) :
    Step.runAll c (steps ++ [s]) = s.run (Step.runAll c steps) :=
  List.foldl_append

/-- A condition on the steps of a run is one on the first step and on the steps after it. -/
theorem forall_steps_cons_iff {wanted : Circuit S → Step S → Prop} {c : Circuit S} {s : Step S}
    {steps : List (Step S)} :
    (∀ prior t, prior ++ [t] <+: s :: steps → wanted (Step.runAll c prior) t) ↔
      wanted c s ∧
        ∀ prior t, prior ++ [t] <+: steps → wanted (Step.runAll (s.run c) prior) t := by
  constructor
  · intro all
    refine ⟨all [] s (List.prefix_append [s] steps), fun prior t isPrefix => ?_⟩
    exact all (s :: prior) t ((List.prefix_cons_inj s).mpr isPrefix)
  · rintro ⟨first, later⟩ prior t isPrefix
    cases prior with
    | nil =>
        obtain ⟨rfl, -⟩ := List.cons_prefix_cons.mp isPrefix
        exact first
    | cons head prior =>
        obtain ⟨rfl, rest⟩ := List.cons_prefix_cons.mp isPrefix
        exact later prior t rest

/-- There is no step in an empty run. -/
theorem forall_steps_nil {wanted : Circuit S → Step S → Prop} {c : Circuit S} :
    ∀ prior t, prior ++ [t] <+: [] → wanted (Step.runAll c prior) t := by
  intro prior t isPrefix
  have empty := List.prefix_nil.mp isPrefix
  simp at empty

/-- If the sound steps are those that are clean and keep a property, a run has the property at every
point and clean steps only exactly if all its steps are sound.  That need only be so where an
invariant holds, which sound steps keep. -/
theorem throughout_iff_of_invariant {invariant holds : Circuit S → Prop}
    {clean sound : Circuit S → Step S → Prop} {c : Circuit S} (start : invariant c)
    (initially : holds c)
    (step_iff : ∀ d s, invariant d → holds d → ((holds (s.run d) ∧ clean d s) ↔ sound d s))
    (kept : ∀ d s, invariant d → holds d → sound d s → invariant (s.run d))
    (steps : List (Step S)) :
    ((∀ prior, prior <+: steps → holds (Step.runAll c prior)) ∧
      ∀ prior s, prior ++ [s] <+: steps → clean (Step.runAll c prior) s) ↔
    ∀ prior s, prior ++ [s] <+: steps → sound (Step.runAll c prior) s := by
  have before : ∀ {prior s}, prior ++ [s] <+: steps → prior <+: steps :=
    fun isPrefix => (List.prefix_append _ _).trans isPrefix
  constructor
  · rintro ⟨points, clean⟩
    have sound : ∀ prior s, prior ++ [s] <+: steps → invariant (Step.runAll c prior) →
        sound (Step.runAll c prior) s := by
      intro prior s isPrefix invariantBefore
      have after := points (prior ++ [s]) isPrefix
      rw [runAll_concat] at after
      exact (step_iff _ s invariantBefore (points prior (before isPrefix))).mp
        ⟨after, clean prior s isPrefix⟩
    have invariant : ∀ prior, prior <+: steps → invariant (Step.runAll c prior) := by
      intro prior
      induction prior using List.reverseRecOn with
      | nil => exact fun _ => start
      | append_singleton prior s ih =>
          intro isPrefix
          have invariantBefore := ih (before isPrefix)
          rw [runAll_concat]
          exact kept _ s invariantBefore (points prior (before isPrefix))
            (sound prior s isPrefix invariantBefore)
    exact fun prior s isPrefix => sound prior s isPrefix (invariant prior (before isPrefix))
  · intro sound
    have points : ∀ prior, prior <+: steps →
        invariant (Step.runAll c prior) ∧ holds (Step.runAll c prior) := by
      intro prior
      induction prior using List.reverseRecOn with
      | nil => exact fun _ => ⟨start, initially⟩
      | append_singleton prior s ih =>
          intro isPrefix
          obtain ⟨invariantBefore, holding⟩ := ih (before isPrefix)
          have soundHere := sound prior s isPrefix
          rw [runAll_concat]
          exact ⟨kept _ s invariantBefore holding soundHere,
            ((step_iff _ s invariantBefore holding).mpr soundHere).1⟩
    refine ⟨fun prior isPrefix => (points prior isPrefix).2, fun prior s isPrefix => ?_⟩
    obtain ⟨invariantBefore, holding⟩ := points prior (before isPrefix)
    exact ((step_iff _ s invariantBefore holding).mpr (sound prior s isPrefix)).2

/-- A property that all sound steps keep needs no invariant beside it. -/
theorem throughout_iff {holds : Circuit S → Prop} {clean sound : Circuit S → Step S → Prop}
    {c : Circuit S} (initially : holds c)
    (step_iff : ∀ d s, holds d → ((holds (s.run d) ∧ clean d s) ↔ sound d s))
    (steps : List (Step S)) :
    ((∀ prior, prior <+: steps → holds (Step.runAll c prior)) ∧
      ∀ prior s, prior ++ [s] <+: steps → clean (Step.runAll c prior) s) ↔
    ∀ prior s, prior ++ [s] <+: steps → sound (Step.runAll c prior) s := by
  let always (_ : Circuit S) : Prop := True
  have start : always c := trivial
  exact throughout_iff_of_invariant start initially (fun d s _ => step_iff d s)
    (fun _ _ _ _ _ => trivial) steps

/-! ## Marking a range -/

/-- What the marking of one qubit keeps, the marking of a range keeps, also if it breaks off. -/
theorem markAncillary_keeps (holds : Circuit S → Prop)
    (each : ∀ d l p, holds d → holds (d.makeAncilla l p).circuit) {c : Circuit S}
    (before : holds c) (lo hi : Nat) : holds (c.markAncillary lo hi).circuit := by
  have all : ∀ (moves : List (Nat × Nat)) (d : Circuit S), holds d →
      holds (d.makeAncillae moves).circuit := by
    intro moves
    induction moves with
    | nil => exact fun _ holding => holding
    | cons move rest ih =>
        intro d holding
        have first := each d move.1 move.2 holding
        rw [makeAncillae, Outcome.andThen]
        split
        · exact ih _ first
        · exact first
  unfold markAncillary
  split
  · exact before
  · split
    · exact before
    · exact all _ c before

/-! ## Stripping -/

/-- What removals and closing up keep, stripping keeps, also if it breaks off. -/
theorem stripFrom_keeps (holds : Circuit S → Prop)
    (removal : ∀ d l, holds d → holds (d.removeQubit l).circuit)
    (closed : ∀ d l p, holds d → holds (d.closeUp l p)) {c : Circuit S} (before : holds c)
    (force closing : Bool) (candidates : List Nat) :
    holds (c.stripFrom force closing candidates).circuit := by
  induction candidates generalizing c with
  | nil => exact before
  | cons p rest ih =>
      rw [stripFrom]
      split
      · exact ih before
      · next l _ =>
          split
          · exact ih before
          · have removed := removal c l before
            rw [Outcome.andThen]
            split
            · cases closing with
              | false => exact ih removed
              | true => exact ih (closed _ l p removed)
            · exact removed

/-! ## Reachable circuits -/

variable [Scalar S] {allowed : Circuit S → Step S → Prop}

/-- A new circuit has the registers of its settings that are not empty. -/
theorem ofConfig?_cases {config : Config} {c : Circuit S} (built : ofConfig? config = some c) :
    ∃ bare : Circuit S,
      (bare = blank config ∨ 0 < config.numQubits ∧
        bare = (blank config).insertQubits config.numQubits config.qregName) ∧
      (c = bare ∨ c = bare.insertClbits config.numClbits config.cregName) := by
  unfold ofConfig? at built
  dsimp only at built
  split_ifs at built with room clbits qubits qubits
  · exact ⟨_, .inr ⟨qubits, rfl⟩, .inr (Option.some.inj built).symm⟩
  · exact ⟨_, .inl rfl, .inr (Option.some.inj built).symm⟩
  · exact ⟨_, .inr ⟨qubits, rfl⟩, .inl (Option.some.inj built).symm⟩
  · exact ⟨_, .inl rfl, .inl (Option.some.inj built).symm⟩

/-- There are at most as many qubits and classical bits in a new circuit as the last index says. -/
theorem ofConfig?_le {config : Config} {c : Circuit S} (built : ofConfig? config = some c) :
    config.numQubits ≤ maxIndex ∧ config.numClbits ≤ maxIndex := by
  unfold ofConfig? at built
  dsimp only at built
  split at built
  · next room =>
      obtain ⟨qubits, clbits⟩ := Bool.and_eq_true_iff.mp room
      exact ⟨isSome_index?.mp (Bool.and_eq_true_iff.mp qubits).1, isSome_index?.mp clbits⟩
  · contradiction

/-- The circuits that allowed steps lead to. -/
inductive Reachable (allowed : Circuit S → Step S → Prop) : Circuit S → Prop where
  /-- A new circuit. -/
  | start {config : Config} {c : Circuit S} (built : ofConfig? config = some c) :
      Reachable allowed c
  /-- The circuit after an allowed step. -/
  | step {c : Circuit S} {s : Step S} (reached : Reachable allowed c) (permitted : allowed c s) :
      Reachable allowed (s.run c)

/-- What new circuits have, and allowed steps keep, all reachable circuits have. -/
theorem Reachable.invariant {c : Circuit S} {holds : Circuit S → Prop}
    (reached : Reachable allowed c)
    (initially : ∀ {config c}, ofConfig? config = some c → holds c)
    (preserved : ∀ {c s}, allowed c s → holds c → holds (s.run c)) : holds c := by
  induction reached with
  | start built => exact initially built
  | step _ permitted ih => exact preserved permitted ih

end Circuit

end QuantumCircuit
