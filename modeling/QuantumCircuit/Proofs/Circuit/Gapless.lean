import QuantumCircuit.Proofs.Circuit.Addition
import QuantumCircuit.Proofs.Circuit.Reachable
import QuantumCircuit.Proofs.Circuit.Removal

/-!
# Steps that leave no gaps

Registers are added at the end, an ancillary qubit can be, marks do not touch indices, and stripping
can close the indices up.  Circuits built in these ways are compact, and their classical registers
tile the classical bits, for as long as the last index there is stays free.  A register that takes
it has an end that wraps around, and is not found to cover anything.
-/

namespace QuantumCircuit

open Registers SortedMap

variable {S : Type}

/-- Whether a step leaves no index out: new qubits come at the end, and removed ones are closed
up. -/
def Step.Gapless (c : Circuit S) : Step S → Prop
  | .addQubitRegister _ _ => True
  | .addClassicalRegister _ _ => True
  | .addAncillaryRegister _ _ => True
  | .addQubit _ _ _ => False
  | .addAncillaryQubit physical _ => physical = c.numTotalQubits
  | .removeQubit _ => False
  | .markAncillary _ _ => True
  | .markGarbage _ _ => True
  | .unifyRegisters _ => False
  | .stripIdle _ closing => closing = true
  | .program _ _ _ => True

/-- Whether qubits and classical bits leave the last index free. -/
structure Circuit.SparesLast (c : Circuit S) : Prop where
  /-- The qubits do. -/
  qubits : c.numTotalQubits ≤ maxIndex
  /-- The classical bits do. -/
  clbits : c.numClbits ≤ maxIndex

/-- Whether a step leaves no index out, but the last one without a qubit. -/
structure Step.Roomy (c : Circuit S) (s : Step S) : Prop where
  /-- No index is left out. -/
  gapless : s.Gapless c
  /-- No qubit takes the last one. -/
  qubits : (s.run c).numTotalQubits ≤ maxIndex

/-- Whether a step leaves no index out, but the last one free. -/
structure Step.Sparing (c : Circuit S) (s : Step S) : Prop extends Step.Roomy c s where
  /-- No classical bit takes the last one. -/
  clbits : (s.run c).numClbits ≤ maxIndex

namespace Circuit

variable {c : Circuit S}

/-! ## Qubits -/

theorem Compact.addQubitRegister (compact : c.Compact) {n : Nat} {name : String}
    (small : (c.addQubitRegister n name).circuit.numTotalQubits ≤ maxIndex) :
    (c.addQubitRegister n name).circuit.Compact := by
  rcases addQubitRegister_cases c n name with ⟨_, failed⟩ | ⟨_, added⟩ | ⟨unblocked, added⟩
  · rw [failed]
    exact compact
  · rw [added]
    exact compact
  · rw [added] at small ⊢
    have total : (c.insertQubits n name).numTotalQubits = c.numTotalQubits + n :=
      Nat.add_right_comm _ _ _
    exact compact.extends (compact.insertQubits_extends unblocked (total ▸ small))

theorem Compact.addAncillaryRegister (compact : c.Compact) {n : Nat} {name : String}
    (small : (c.addAncillaryRegister n name).circuit.numTotalQubits ≤ maxIndex) :
    (c.addAncillaryRegister n name).circuit.Compact := by
  rcases addAncillaryRegister_cases c n name with ⟨_, failed⟩ | ⟨_, added⟩ | ⟨unblocked, added⟩
  · rw [failed]
    exact compact
  · rw [added]
    exact compact
  · rw [added] at small ⊢
    have total : (c.insertAncillae n name).numTotalQubits = c.numTotalQubits + n :=
      (Nat.add_assoc _ _ _).symm
    exact compact.extends (compact.insertAncillae_extends unblocked (total ▸ small))

theorem Compact.addClassicalRegister (compact : c.Compact) (n : Nat) (name : String) :
    (c.addClassicalRegister n name).circuit.Compact := by
  unfold Circuit.addClassicalRegister
  split_ifs
  · exact compact
  · exact compact
  · exact compact.withClbits _ _
  · exact compact

/-- Stripping with closing up keeps a circuit compact, and does not touch classical bits. -/
theorem Compact.stripFrom (compact : c.Compact) (force : Bool) (candidates : List Nat) :
    (stripFrom force true c candidates).circuit.Compact ∧
      (stripFrom force true c candidates).circuit.cregs = c.cregs ∧
      (stripFrom force true c candidates).circuit.numClbits = c.numClbits := by
  induction candidates generalizing c with
  | nil => exact ⟨compact, rfl, rfl⟩
  | cons p rest ih =>
      rw [Circuit.stripFrom]
      split
      · exact ih compact
      · next l held =>
          split
          · exact ih compact
          · rcases compact.removeAndClose held with ⟨removed, done, closed, closedCompact⟩
            rw [done]
            rcases ih closedCompact with ⟨stripped, cregs, numClbits⟩
            refine ⟨stripped, cregs.trans ?_, numClbits.trans ?_⟩
            · rw [closed.rest]
            · rw [closed.rest]

theorem Compact.of_ofConfig? [Scalar S] {config : Config} (built : ofConfig? config = some c) :
    c.Compact := by
  have blank : (blank config : Circuit S).Compact := compact_blank config
  have small : (Circuit.blank config : Circuit S).numTotalQubits + config.numQubits ≤ maxIndex :=
    Nat.le_trans (Nat.le_of_eq (Nat.zero_add _)) (ofConfig?_le built).1
  have grown : ((Circuit.blank config : Circuit S).insertQubits config.numQubits
      config.qregName).Compact := blank.extends (blank.insertQubits_extends rfl small)
  rcases ofConfig?_cases built with ⟨bare, rfl | ⟨_, rfl⟩, rfl | rfl⟩
  · exact blank
  · exact blank.withClbits _ _
  · exact grown
  · exact grown.withClbits _ _

/-- Each step that leaves no gaps, but the last index without a qubit, keeps a circuit compact. -/
theorem Compact.run (compact : c.Compact) {s : Step S} (roomy : s.Roomy c) :
    (s.run c).Compact := by
  obtain ⟨gapless, small⟩ := roomy
  cases s with
  | addQubitRegister n name => exact compact.addQubitRegister small
  | addClassicalRegister n name => exact compact.addClassicalRegister n name
  | addAncillaryRegister n name => exact compact.addAncillaryRegister small
  | addQubit logical physical output => contradiction
  | addAncillaryQubit physical output =>
      obtain rfl : physical = c.numTotalQubits := gapless
      exact compact.addAncillaryQubit output small
  | removeQubit logical => contradiction
  | markAncillary lo hi =>
      cases inRange : c.rangeError? lo hi with
      | none =>
          rcases compact.markAncillary inRange with ⟨_, _, _, _, _, marked, markedCompact⟩
          rw [Step.run, marked]
          exact markedCompact
      | some e =>
          rw [Step.run, Circuit.markAncillary, inRange]
          exact compact
  | markGarbage lo hi => exact compact.markGarbage lo hi
  | unifyRegisters name => contradiction
  | stripIdle force closing =>
      obtain rfl : closing = true := gapless
      exact (compact.stripFrom force _).1
  | program ops variableNames globalPhase => exact compact.withProgram ops variableNames globalPhase

/-! ## Classical bits -/

/-- The classical bits leave the last index free. -/
theorem ClbitsTiled.numClbits_le (tiled : c.ClbitsTiled) : c.numClbits ≤ maxIndex := by
  by_contra more
  have covered := tiled maxIndex
  rw [if_pos (Nat.lt_of_not_le more), coverCount_of_le le_rfl] at covered
  exact absurd covered Nat.zero_ne_one

/-- A new classical register goes on where the others end. -/
theorem ClbitsTiled.insertClbits (tiled : c.ClbitsTiled) {n : Nat} {name : String}
    (fresh : c.cregs.contains name = false) (small : c.numClbits + n ≤ maxIndex) :
    (c.insertClbits n name).ClbitsTiled := by
  intro i
  have before := tiled i
  have fits : (⟨c.numClbits, n⟩ : Register).Fits := small
  change coverCount (c.cregs.insert name ⟨c.numClbits, n⟩) i =
    if i < c.numClbits + n then 1 else 0
  rw [coverCount_insert fits fresh, before]
  dsimp only
  split_ifs <;> omega

theorem ClbitsTiled.addClassicalRegister (tiled : c.ClbitsTiled) {n : Nat} {name : String}
    (small : (c.addClassicalRegister n name).circuit.numClbits ≤ maxIndex) :
    (c.addClassicalRegister n name).circuit.ClbitsTiled := by
  unfold Circuit.addClassicalRegister at small ⊢
  split
  · exact tiled
  · next fresh =>
      rw [if_neg fresh] at small
      split_ifs at small ⊢
      · exact tiled
      · exact tiled.insertClbits (Bool.eq_false_of_not_eq_true fresh) small
      · exact tiled

theorem ClbitsTiled.of_ofConfig? [Scalar S] {config : Config}
    (built : ofConfig? config = some c) : c.ClbitsTiled := by
  have none : (blank config : Circuit S).ClbitsTiled := fun i => by simp [blank]
  have small : 0 + config.numClbits ≤ maxIndex :=
    Nat.le_trans (Nat.le_of_eq (Nat.zero_add _)) (ofConfig?_le built).2
  rcases ofConfig?_cases built with ⟨bare, rfl | ⟨_, rfl⟩, rfl | rfl⟩
  · exact none
  · exact none.insertClbits (contains_empty _) small
  · exact none
  · exact ClbitsTiled.insertClbits none (contains_empty _) small

/-- Each step that leaves no gaps, but the last index free, keeps the classical bits tiled. -/
theorem ClbitsTiled.run (tiled : c.ClbitsTiled) (compact : c.Compact) {s : Step S}
    (gapless : s.Gapless c) (small : (s.run c).numClbits ≤ maxIndex) :
    (s.run c).ClbitsTiled := by
  cases s with
  | addQubitRegister n name =>
      rw [Step.run, Circuit.addQubitRegister]
      split_ifs <;> exact tiled
  | addClassicalRegister n name => exact tiled.addClassicalRegister small
  | addAncillaryRegister n name =>
      rw [Step.run, Circuit.addAncillaryRegister]
      split_ifs <;> exact tiled
  | addQubit logical physical output => contradiction
  | addAncillaryQubit physical output =>
      rw [Step.run, Circuit.addAncillaryQubit]
      dsimp only
      split_ifs <;> exact tiled
  | removeQubit logical => contradiction
  | markAncillary lo hi =>
      cases inRange : c.rangeError? lo hi with
      | none =>
          rcases compact.markAncillary inRange with ⟨_, _, _, _, _, marked, _⟩
          rw [Step.run, marked]
          exact tiled
      | some e =>
          rw [Step.run, Circuit.markAncillary, inRange]
          exact tiled
  | markGarbage lo hi =>
      rw [Step.run, Circuit.markGarbage]
      split
      · exact tiled
      · split <;> exact tiled
  | unifyRegisters name => contradiction
  | stripIdle force closing =>
      obtain rfl : closing = true := gapless
      rcases compact.stripFrom force c.initialLayout.keys.reverse with ⟨_, cregs, numClbits⟩
      rw [Step.run, stripIdle, ClbitsTiled, cregs, numClbits]
      exact tiled
  | program ops variableNames globalPhase => exact tiled

/-! ## Reachable circuits -/

variable [Scalar S]

theorem Reachable.compact (reached : Reachable Step.Roomy c) : c.Compact :=
  reached.invariant Compact.of_ofConfig? fun roomy compact => compact.run roomy

theorem Reachable.tiled (reached : Reachable Step.Sparing c) : c.Compact ∧ c.ClbitsTiled := by
  induction reached with
  | start built => exact ⟨Compact.of_ofConfig? built, ClbitsTiled.of_ofConfig? built⟩
  | step _ sparing ih =>
      obtain ⟨compact, tiled⟩ := ih
      exact ⟨compact.run sparing.toRoomy, tiled.run compact sparing.gapless sparing.clbits⟩

end Circuit

end QuantumCircuit
