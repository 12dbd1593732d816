import QuantumCircuit.Circuit.Transform
import QuantumCircuit.Proofs.Circuit.Admission
import QuantumCircuit.Proofs.Circuit.Flattening
import QuantumCircuit.Proofs.Circuit.Operands
import QuantumCircuit.Proofs.Operation.Bits
import QuantumCircuit.Proofs.Operation.Touched

/-!
# Circuits from their operations

The operations that a circuit has taken in lie in its range: the qubits that they touch, the bits
that they measure into, and the registers of their conditions.  A circuit that is made of these
operations alone has just the qubits that are touched and the bits that are measured into.  A
condition may reach further than that, and then it is out of range.  The end of a register is
computed as an index, here as in the checks.
-/

namespace QuantumCircuit

open Operation

variable {S : Type}

namespace Circuit

/-! ## Operands in range -/

/-- Whether operations refer to qubits and bits of a circuit only, at any depth. -/
structure InRange (c : Circuit S) (ops : List (Operation S)) : Prop where
  /-- The qubits that are touched. -/
  qubits : ∀ q ∈ occurrencesAll ops, q < c.numTotalQubits
  /-- The bits that are measured into. -/
  bits : ∀ b ∈ measuredBitsAll ops, b < c.numClbits
  /-- The ends of the registers of conditions. -/
  registers : ∀ r ∈ controlRegistersAll ops, r.stop ≤ c.numClbits

variable {c d : Circuit S} {ops : List (Operation S)}

theorem InRange.append {more : List (Operation S)} (first : c.InRange ops)
    (second : c.InRange more) : c.InRange (ops ++ more) where
  qubits := by
    rw [occurrencesAll_append]
    exact List.forall_mem_append.mpr ⟨first.qubits, second.qubits⟩
  bits := by
    rw [measuredBitsAll_append]
    exact List.forall_mem_append.mpr ⟨first.bits, second.bits⟩
  registers := by
    rw [controlRegistersAll_append]
    exact List.forall_mem_append.mpr ⟨first.registers, second.registers⟩

/-- Operations in range stay so in a circuit that is as large. -/
theorem InRange.mono (inRange : c.InRange ops) (qubits : c.numTotalQubits ≤ d.numTotalQubits)
    (clbits : c.numClbits ≤ d.numClbits) : d.InRange ops where
  qubits q occurs := Nat.lt_of_lt_of_le (inRange.qubits q occurs) qubits
  bits b measured := Nat.lt_of_lt_of_le (inRange.bits b measured) clbits
  registers r controls := Nat.le_trans (inRange.registers r controls) clbits

/-- Whether the operations of a circuit are in range, and conditions stand on gates. -/
structure Ranged (c : Circuit S) : Prop where
  /-- The operations are in range. -/
  inRange : c.InRange c.ops
  /-- Conditions stand on gates. -/
  onGates : allConditionsOnGates c.ops = true

/-! ## Emissions -/

section Emissions

variable [Scalar S]

/-- Whether an outcome is a refusal, or that of appending an operation in range, whose condition, if
it has one, stands on a gate. -/
def Takes (c : Circuit S) (o : Outcome S Unit) : Prop :=
  (∃ cause, o = c.refuse cause) ∨
    ∃ op, o = (c.push op).done () ∧ c.InRange [op] ∧ op.conditionsOnGates = true

omit [Scalar S] in
/-- What is to be checked of a single operation. -/
theorem inRange_singleton_iff {op : Operation S} :
    c.InRange [op] ↔ (∀ q ∈ op.occurrences, q < c.numTotalQubits) ∧
      (∀ b ∈ op.measuredBits, b < c.numClbits) ∧
      ∀ r ∈ op.controlRegisters, r.stop ≤ c.numClbits := by
  constructor
  · rintro ⟨qubits, bits, registers⟩
    simp only [occurrencesAll, measuredBitsAll, controlRegistersAll, List.append_nil] at *
    exact ⟨qubits, bits, registers⟩
  · rintro ⟨qubits, bits, registers⟩
    refine ⟨?_, ?_, ?_⟩
    · simpa only [occurrencesAll, List.append_nil] using qubits
    · simpa only [measuredBitsAll, List.append_nil] using bits
    · simpa only [controlRegistersAll, List.append_nil] using registers

/-- An emission is refused, or it appends one operation in range. -/
theorem takes_emission (c : Circuit S) (e : Emission S) : c.Takes (e.run c) := by
  refine (emission_admits c e).imp_right fun ⟨op, pushed, admits⟩ => ⟨op, pushed, ?_, ?_⟩
  · exact inRange_singleton_iff.mpr
      ⟨admits.occurrences_lt, admits.measuredBits_lt, admits.controlRegisters_le⟩
  · exact admits.conditionsOnGates

end Emissions

/-! ## Circuits that grow -/

/-- Whether the second circuit has the program of the first, and no less qubits and bits. -/
structure Widens (c d : Circuit S) : Prop where
  /-- The operations are the same. -/
  ops : d.ops = c.ops
  /-- The qubits. -/
  qubits : c.numTotalQubits ≤ d.numTotalQubits
  /-- The classical bits. -/
  clbits : c.numClbits ≤ d.numClbits

theorem Widens.refl (c : Circuit S) : c.Widens c :=
  ⟨rfl, Nat.le_refl _, Nat.le_refl _⟩

theorem Widens.trans {e : Circuit S} (first : c.Widens d) (second : d.Widens e) : c.Widens e :=
  ⟨second.ops.trans first.ops, Nat.le_trans first.qubits second.qubits,
    Nat.le_trans first.clbits second.clbits⟩

theorem Ranged.widens (ranged : c.Ranged) (wider : c.Widens d) : d.Ranged where
  inRange := wider.ops ▸ ranged.inRange.mono wider.qubits wider.clbits
  onGates := wider.ops ▸ ranged.onGates

theorem widens_insertQubits (c : Circuit S) (n : Nat) (name : String) :
    c.Widens (c.insertQubits n name) := by
  refine ⟨rfl, ?_, Nat.le_refl _⟩
  change c.numQubits + c.numAncillae ≤ c.numQubits + n + c.numAncillae
  omega

theorem widens_insertAncillae (c : Circuit S) (n : Nat) (name : String) :
    c.Widens (c.insertAncillae n name) := by
  refine ⟨rfl, ?_, Nat.le_refl _⟩
  change c.numQubits + c.numAncillae ≤ c.numQubits + (c.numAncillae + n)
  omega

theorem widens_insertClbits (c : Circuit S) (n : Nat) (name : String) :
    c.Widens (c.insertClbits n name) :=
  ⟨rfl, Nat.le_refl _, Nat.le_add_right _ _⟩

theorem widens_addQubitRegister (c : Circuit S) (n : Nat) (name : String) :
    c.Widens (c.addQubitRegister n name).circuit := by
  rcases addQubitRegister_cases c n name with ⟨_, failed⟩ | ⟨_, added⟩ | ⟨_, added⟩
  · rw [failed]
    exact .refl c
  · rw [added]
    exact .refl c
  · rw [added]
    exact widens_insertQubits c n name

theorem widens_addAncillaryRegister (c : Circuit S) (n : Nat) (name : String) :
    c.Widens (c.addAncillaryRegister n name).circuit := by
  rcases addAncillaryRegister_cases c n name with ⟨_, failed⟩ | ⟨_, added⟩ | ⟨_, added⟩
  · rw [failed]
    exact .refl c
  · rw [added]
    exact .refl c
  · rw [added]
    exact widens_insertAncillae c n name

theorem widens_addClassicalRegister (c : Circuit S) (n : Nat) (name : String) :
    c.Widens (c.addClassicalRegister n name).circuit := by
  rw [addClassicalRegister]
  split_ifs
  · exact .refl c
  · exact .refl c
  · exact widens_insertClbits c n name
  · exact .refl c

theorem widens_makeAncilla (c : Circuit S) (l p : Nat) :
    c.Widens (c.makeAncilla l p).circuit := by
  have moved : (c.moveToAncillae p).circuit.ops = c.ops ∧
      (c.moveToAncillae p).circuit.numClbits = c.numClbits := by
    unfold moveToAncillae
    split
    · exact ⟨rfl, rfl⟩
    · split <;> exact ⟨rfl, rfl⟩
  have kept : (c.makeAncilla l p).circuit.ops = c.ops ∧
      (c.makeAncilla l p).circuit.numClbits = c.numClbits := by
    unfold makeAncilla Outcome.andThen
    split
    · dsimp only
      split <;> exact moved
    · exact moved
  exact ⟨kept.1, (numTotalQubits_makeAncilla c l p).ge, kept.2.ge⟩

end Circuit

/-! ## Circuits that emissions build -/

variable [Scalar S]

/-- Whether a step takes no qubit out, and changes the program by an emission or by putting
operations that follow each other together in a block. -/
def Step.Emits (c : Circuit S) : Step S → Prop
  | .removeQubit _ => False
  | .stripIdle _ _ => False
  | .program ops variableNames globalPhase => Unwraps ops c.ops ∨
      ∃ e : Emission S, (e.run c).circuit = { c with ops, variableNames, globalPhase }
  | _ => True

namespace Circuit

variable {c d : Circuit S}

omit [Scalar S] in
/-- Blocks refer to what the operations in them refer to. -/
theorem ranged_of_unwraps {ops : List (Operation S)} (ranged : c.Ranged)
    (unwraps : Unwraps ops c.ops) (variableNames : SortedSet String) (globalPhase : S) :
    Ranged { c with ops, variableNames, globalPhase } where
  inRange := by
    refine ⟨?_, ?_, ?_⟩
    · rw [transparent_occurrencesAll.eq_of_unwraps unwraps]
      exact ranged.inRange.qubits
    · rw [transparent_measuredBitsAll.eq_of_unwraps unwraps]
      exact ranged.inRange.bits
    · rw [transparent_controlRegistersAll.eq_of_unwraps unwraps]
      exact ranged.inRange.registers
  onGates := (transparent_allConditionsOnGates.eq_of_unwraps unwraps).trans ranged.onGates

/-- An emission keeps all operations in range. -/
theorem ranged_emission (ranged : c.Ranged) (e : Emission S) : (e.run c).circuit.Ranged := by
  rcases takes_emission c e with ⟨_, failed⟩ | ⟨op, pushed, inRange, onGate⟩
  · rw [failed]
    exact ranged
  · rw [pushed]
    refine ⟨(ranged.inRange.append inRange).mono (Nat.le_refl _) (Nat.le_refl _), ?_⟩
    change allConditionsOnGates (c.ops ++ [op]) = true
    rw [allConditionsOnGates_append, ranged.onGates, allConditionsOnGates, onGate]
    rfl

/-- A step that takes no qubit out keeps all operations in range. -/
theorem Ranged.run (ranged : c.Ranged) {s : Step S} (emits : s.Emits c) : (s.run c).Ranged := by
  cases s with
  | addQubitRegister n name => exact ranged.widens (widens_addQubitRegister c n name)
  | addClassicalRegister n name => exact ranged.widens (widens_addClassicalRegister c n name)
  | addAncillaryRegister n name => exact ranged.widens (widens_addAncillaryRegister c n name)
  | addQubit logical physical output =>
      rw [Step.run]
      rcases addQubit_cases c logical physical output with ⟨_, failed⟩ | ⟨_, _, _, added⟩
      · rw [failed]
        exact ranged
      · rw [added]
        refine ranged.widens ⟨rfl, ?_, Nat.le_refl _⟩
        exact Nat.add_le_add_right (Nat.le_succ c.numQubits) c.numAncillae
  | addAncillaryQubit physical output =>
      rw [Step.run]
      rcases addAncillaryQubit_cases c physical output with ⟨_, failed⟩ | ⟨_, _, added⟩
      · rw [failed]
        exact ranged
      · rw [added]
        refine ranged.widens ⟨rfl, ?_, Nat.le_refl _⟩
        exact Nat.le_succ (c.numQubits + c.numAncillae)
  | removeQubit logical => exact absurd emits id
  | markAncillary lo hi =>
      exact ranged.widens (markAncillary_keeps (c.Widens ·)
        (fun d l p wider => wider.trans (widens_makeAncilla d l p)) (Widens.refl c) lo hi)
  | markGarbage lo hi =>
      rw [Step.run, markGarbage]
      split
      · exact ranged
      · split
        · exact ranged
        · exact ranged.widens ⟨rfl, Nat.le_refl _, Nat.le_refl _⟩
  | unifyRegisters name => exact ranged.widens ⟨rfl, Nat.le_refl _, Nat.le_refl _⟩
  | stripIdle force closing => exact absurd emits id
  | program ops variableNames globalPhase =>
      rw [Step.run]
      rcases emits with unwraps | ⟨e, emitted⟩
      · exact ranged_of_unwraps ranged unwraps variableNames globalPhase
      · rw [← emitted]
        exact ranged_emission ranged e

omit [Scalar S] in
theorem ranged_of_ops_eq_nil (empty : c.ops = []) : c.Ranged := by
  refine ⟨⟨?_, ?_, ?_⟩, ?_⟩ <;>
    simp [empty, occurrencesAll, measuredBitsAll, controlRegistersAll, allConditionsOnGates]

/-- The operations of a circuit that emissions build are in range. -/
theorem Reachable.ranged (built : Reachable Step.Emits c) : c.Ranged := by
  refine built.invariant (fun {config c} start => ?_) fun emits ranged => ranged.run emits
  rcases ofConfig?_cases start with ⟨bare, rfl | ⟨_, rfl⟩, rfl | rfl⟩ <;>
    exact ranged_of_ops_eq_nil rfl

/-! ## The size of a circuit of operations -/

/-- There is a circuit of given sizes as long as there are indices for them. -/
theorem withSize?_isSome_iff {numQubits numClbits : Nat} :
    (withSize? numQubits numClbits : Option (Circuit S)).isSome = true ↔
      numQubits ≤ maxIndex ∧ numClbits ≤ maxIndex := by
  have room : ∀ config : Config, (blank config : Circuit S).hasRoomFor numQubits = true ↔
      numQubits ≤ maxIndex := by
    intro config
    rw [hasRoomFor, Bool.and_eq_true, isSome_index?, decide_eq_true_iff]
    change numQubits ≤ maxIndex ∧ 0 + 0 + numQubits ≤ maxIndex + 1 ↔ numQubits ≤ maxIndex
    omega
  unfold withSize? withSeed? ofConfig?
  dsimp only
  rw [Option.isSome_ite, Bool.and_eq_true, isSome_index?, room]

theorem sizes_of_withSize? {numQubits numClbits : Nat} {c : Circuit S}
    (built : withSize? numQubits numClbits = some c) :
    c.ops = [] ∧ c.numTotalQubits = numQubits ∧ c.numClbits = numClbits := by
  have total : ∀ m : Nat, 0 + m + 0 = m := fun m => (Nat.add_zero _).trans (Nat.zero_add m)
  unfold withSize? withSeed? ofConfig? at built
  dsimp only at built
  split_ifs at built with room clbits qubits qubits
  · obtain rfl := Option.some.inj built
    exact ⟨rfl, total numQubits, Nat.zero_add numClbits⟩
  · obtain rfl := Option.some.inj built
    exact ⟨rfl, by change 0 + 0 = numQubits; omega, Nat.zero_add numClbits⟩
  · obtain rfl := Option.some.inj built
    exact ⟨rfl, total numQubits, by change 0 = numClbits; omega⟩
  · obtain rfl := Option.some.inj built
    exact ⟨rfl, by change 0 + 0 = numQubits; omega, by change 0 = numClbits; omega⟩

omit [Scalar S] in
/-- Where conditions stand on gates, the greatest width bounds all qubits that occur. -/
theorem greatestWidth_le_iff_occurrences {ops : List (Operation S)}
    (onGates : allConditionsOnGates ops = true) {n : Nat} :
    (ops.map width).max?.getD 0 ≤ n ↔ ∀ q ∈ occurrencesAll ops, q < n := by
  rw [greatestWidth_le_iff, ← width_compound_le_iff, width_le_iff]
  refine forall_congr' fun q => imp_congr_left ?_
  rw [usedQubits, mem_usedQubitsAll_iff_anyActsOn]
  constructor
  · intro acts
    exact (mem_occurrencesAll_iff ops).mpr (.inl ((anyActsOn_iff_mem_exposedAll ops).mp acts))
  · exact anyActsOn_of_mem_occurrencesAll (allConditionsPlain_of_onGates ops onGates)

/-- The circuit of some operations has them, and it is as large as these need, conditions apart. -/
theorem sizes_of_ofBlock? {ops : List (Operation S)} (onGates : allConditionsOnGates ops = true)
    {d : Circuit S} (rebuilt : ofBlock? ops = some d) :
    d.ops = ops ∧ (∀ n, d.numTotalQubits ≤ n ↔ ∀ q ∈ occurrencesAll ops, q < n) ∧
      ∀ n, d.numClbits ≤ n ↔ ∀ b ∈ measuredBitsAll ops, b < n := by
  obtain ⟨bare, built, rfl⟩ := Option.map_eq_some_iff.mp rebuilt
  obtain ⟨empty, qubits, clbits⟩ := sizes_of_withSize? built
  rw [pushAll, foldl_recordVariables, empty]
  refine ⟨rfl, fun n => ?_, fun n => ?_⟩
  · rw [← greatestWidth_le_iff_occurrences onGates, ← qubits]
    rfl
  · rw [← highestClbitAll?_lt_iff ops onGates, ← greatestClbit_lt_iff]
    change bare.numClbits ≤ n ↔ _
    rw [clbits]
    cases (ops.filterMap highestClbit?).max? with
    | none => simp
    | some b => simp

/-- There is a circuit of some operations as long as there are indices for what they need. -/
theorem ofBlock?_isSome_iff {ops : List (Operation S)}
    (onGates : allConditionsOnGates ops = true) :
    (ofBlock? ops).isSome = true ↔
      (∀ q ∈ occurrencesAll ops, q < maxIndex) ∧ ∀ b ∈ measuredBitsAll ops, b < maxIndex := by
  rw [ofBlock?, Option.isSome_map, withSize?_isSome_iff, greatestWidth_le_iff_occurrences onGates,
    ← highestClbitAll?_lt_iff ops onGates, ← greatestClbit_lt_iff]
  cases (ops.filterMap highestClbit?).max? with
  | none => simp
  | some b => simp

/-! ## What is in range again -/

/-- In a circuit that emissions build, all operations are in range; of the bits of a register whose
end does not wrap around, none is missing.  As long as there are indices for what they need, the
operations make a circuit again, which has just the qubits that they touch and the bits that they
measure into, so that these are in range again.  All of them are in range again exactly if every bit
up to the end of the register of a condition is at most the greatest bit that is measured into. -/
theorem rebuilt_inRange_iff {c : Circuit S} (built : Reachable Step.Emits c) :
    c.InRange c.ops ∧
    (∀ r ∈ controlRegistersAll c.ops, r.Fits → r.start + r.size ≤ c.numClbits) ∧
    c.takeBlock.answer = .ok c.ops ∧
    ((ofBlock? c.ops).isSome = true ↔ (∀ q ∈ occurrencesAll c.ops, q < maxIndex) ∧
      ∀ b ∈ measuredBitsAll c.ops, b < maxIndex) ∧
    ∀ d, ofBlock? c.ops = some d → d.ops = c.ops ∧
      (∀ n, d.numTotalQubits ≤ n ↔ ∀ q ∈ occurrencesAll c.ops, q < n) ∧
      (∀ n, d.numClbits ≤ n ↔ ∀ b ∈ measuredBitsAll c.ops, b < n) ∧
      (∀ q ∈ occurrencesAll d.ops, q < d.numTotalQubits) ∧
      (∀ b ∈ measuredBitsAll d.ops, b < d.numClbits) ∧
      (d.InRange d.ops ↔ ∀ r ∈ controlRegistersAll c.ops, ∀ i < r.stop,
        ∃ b ∈ measuredBitsAll c.ops, i ≤ b) := by
  have ranged := built.ranged
  refine ⟨ranged.inRange, fun r controls fits => fits.stop_eq ▸ ranged.inRange.registers r controls,
    rfl, ofBlock?_isSome_iff ranged.onGates, fun d rebuilt => ?_⟩
  obtain ⟨ops, qubits, clbits⟩ := sizes_of_ofBlock? ranged.onGates rebuilt
  have qubitsBelow := (qubits d.numTotalQubits).mp (Nat.le_refl _)
  have bitsBelow := (clbits d.numClbits).mp (Nat.le_refl _)
  -- A bit is there exactly if it is not above all bits that are measured into.
  have bit_iff : ∀ i, i < d.numClbits ↔ ∃ b ∈ measuredBitsAll c.ops, i ≤ b := by
    intro i
    rw [← Nat.not_le, clbits i]
    push Not
    rfl
  have register_iff : ∀ r : Register, r.stop ≤ d.numClbits ↔
      ∀ i < r.stop, ∃ b ∈ measuredBitsAll c.ops, i ≤ b := by
    intro r
    simp only [← bit_iff]
    exact ⟨fun fits i below => Nat.lt_of_lt_of_le below fits, fun all => Nat.le_of_not_lt
      fun beyond => Nat.lt_irrefl _ (all _ beyond)⟩
  rw [ops]
  refine ⟨rfl, qubits, clbits, qubitsBelow, bitsBelow, ?_⟩
  simp only [← register_iff]
  exact ⟨fun inRange => inRange.registers, fun registers => ⟨qubitsBelow, bitsBelow, registers⟩⟩

/-- A qubit is measured into the second of two bits, and a gate stands under a condition on both.
After the measurement is put into a block, all operations are in range again. -/
theorem rebuilt_inRange_measured :
    let new : Circuit Float := ((blank Config.default).insertQubits 2 "q").insertClbits 2 "c"
    let measured := ((Emission.measure [0] [1] : Emission Float).run new).circuit
    let condition : Condition := ⟨⟨0, 2⟩, 3, .eq⟩
    let conditioned := ((Emission.conditioned .x 1 .empty condition []).run measured).circuit
    let op : Operation Float := .nonUnitary (.ofMeasure [0] [1])
    let gate : Operation Float := .conditioned (.standard ⟨.x, .empty, [1], []⟩) condition
    ∃ d : Circuit Float, ofBlock? [.compound [op], gate] = some d ∧
      conditioned.ops = [op, gate] ∧ d.numClbits = 2 ∧ d.InRange [.compound [op], gate] := by
  intro new measured condition conditioned op gate
  have built : ofConfig? { Config.default with numQubits := 2, numClbits := 2 } = some new := rfl
  have first : Reachable Step.Emits measured := (Reachable.start built).step
    (s := .program [op] .empty Scalar.zero) (.inr ⟨.measure [0] [1], rfl⟩)
  have second : Reachable Step.Emits conditioned := first.step
    (s := .program [op, gate] .empty Scalar.zero)
    (.inr ⟨.conditioned .x 1 .empty condition [], rfl⟩)
  have third := second.step (s := .program [.compound [op], gate] .empty Scalar.zero)
    (.inl (Unwraps.here [] [op] [gate]))
  have rebuilt := (rebuilt_inRange_iff third).2.2.2.2 _ rfl
  refine ⟨_, rfl, rfl, rfl, rebuilt.2.2.2.2.2.mpr ?_⟩
  decide +kernel

/-- Nothing is measured into the bit of a condition, so the new circuit does not have it. -/
theorem not_inRange_rebuilt :
    let new : Circuit Float := ((blank Config.default).insertQubits 1 "q").insertClbits 1 "c"
    let gate : Emission Float := .conditioned .x 0 .empty ⟨⟨0, 1⟩, 1, .eq⟩ []
    let conditioned := (gate.run new).circuit
    (gate.run new).answer = .ok () ∧ Reachable Step.Emits conditioned ∧
      ∃ d : Circuit Float, ofBlock? conditioned.ops = some d ∧ d.numClbits = 0 ∧
        controlRegistersAll d.ops = [⟨0, 1⟩] ∧ ¬ d.InRange d.ops := by
  intro new gate conditioned
  have built : ofConfig? { Config.default with numQubits := 1, numClbits := 1 } = some new := rfl
  refine ⟨rfl, (Reachable.start built).step
    (s := .program conditioned.ops .empty Scalar.zero) (.inr ⟨gate, rfl⟩), _, rfl, rfl, rfl, ?_⟩
  intro inRange
  exact absurd (inRange.registers ⟨0, 1⟩ (by decide +kernel)) (by decide +kernel)

end Circuit

end QuantumCircuit
