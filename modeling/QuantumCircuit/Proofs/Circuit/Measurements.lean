import QuantumCircuit.Proofs.Circuit.Flattening
import QuantumCircuit.Proofs.Circuit.Refusal

/-!
# Measuring by the output permutation

A circuit is measured into as many classical bits as its output permutation has entries.  Bits that
are missing are added in a new register, and only then the entries are checked, against the bits
that are there by now.  So the request is all or nothing exactly if no bits are missing, or they
cannot be added, or no entry fails: otherwise it is refused and leaves the register behind.
-/

namespace QuantumCircuit.Circuit

open Outcome

variable {S : Type}

/-! ## Missing bits -/

/-- The number of classical bits that are added before the output permutation is measured: one for
each entry if there are no registers, and otherwise those that there are too few of. -/
def missingBits (c : Circuit S) : Nat :=
  if c.cregs.isEmpty then c.outputPermutation.size else c.outputPermutation.size - c.numClbits

/-- The circuit with the missing bits in a register of the given name. -/
def withMissingBits (c : Circuit S) (name : String) : Circuit S :=
  if c.missingBits = 0 then c else c.insertClbits c.missingBits name

/-- Whether bits are missing and the name for their register is taken. -/
def IsNameTaken (c : Circuit S) (name : String) : Prop :=
  c.missingBits ≠ 0 ∧ c.cregs.contains name = true

/-- Whether bits are missing and there are no indices for them. -/
def LacksIndices (c : Circuit S) : Prop :=
  c.missingBits ≠ 0 ∧ ¬ (c.missingBits ≤ maxIndex ∧ c.numClbits ≤ maxIndex)

theorem numClbits_withMissingBits (c : Circuit S) (name : String) :
    (c.withMissingBits name).numClbits = c.numClbits + c.missingBits := by
  unfold withMissingBits
  split
  · next enough => rw [enough, Nat.add_zero]
  · rfl

/-- Only missing bits make a difference. -/
theorem withMissingBits_eq_iff {c : Circuit S} {name : String} :
    c.withMissingBits name = c ↔ c.missingBits = 0 := by
  constructor
  · intro same
    have bits := congrArg numClbits same
    rw [numClbits_withMissingBits] at bits
    omega
  · intro enough
    exact if_pos enough

/-- Missing bits are refused, or not added for want of indices, or added. -/
theorem provideBits_cases (c : Circuit S) (name : String) :
    (c.IsNameTaken name ∧ ∃ cause, c.provideBits name = c.refuse cause) ∨
    (¬ c.IsNameTaken name ∧ c.LacksIndices ∧ c.provideBits name = c.fault) ∨
    (¬ c.IsNameTaken name ∧ ¬ c.LacksIndices ∧
      c.provideBits name = (c.withMissingBits name).done ()) := by
  have added : ∀ n, c.missingBits = n → c.cregs.contains name = false →
      (¬ c.IsNameTaken name ∧ c.LacksIndices ∧ c.addClassicalRegister n name = c.fault) ∨
      (¬ c.IsNameTaken name ∧ ¬ c.LacksIndices ∧
        c.addClassicalRegister n name = (c.withMissingBits name).done ()) := by
    rintro n rfl free
    have notTaken : ¬ c.IsNameTaken name := fun taken =>
      Bool.false_ne_true (free.symm.trans taken.2)
    unfold addClassicalRegister withMissingBits LacksIndices
    split_ifs <;> simp_all
  unfold provideBits
  dsimp only
  split_ifs with empty short taken
  · have free : c.cregs.contains name = false := by
      have entries : c.cregs.entries = [] := List.isEmpty_iff.mp empty
      rw [SortedMap.contains, SortedMap.find?, entries]
      rfl
    exact .inr (added _ (if_pos empty) free)
  · refine .inl ⟨⟨?_, taken⟩, _, rfl⟩
    rw [missingBits, if_neg empty]
    omega
  · exact .inr (added _ (if_neg empty) (Bool.eq_false_iff.mpr taken))
  · have enough : c.missingBits = 0 := by
      rw [missingBits, if_neg empty]
      omega
    exact .inr (.inr ⟨fun taken => taken.1 enough, fun lacks => lacks.1 enough,
      by rw [withMissingBits, if_pos enough]⟩)

/-! ## The entries of the output permutation -/

/-- Whether each entry of the output permutation is a qubit in range and, once missing bits are
added, a bit in range. -/
def IsOutputInRange (c : Circuit S) : Prop :=
  ∀ e ∈ c.outputPermutation.entries,
    e.1 < c.numTotalQubits ∧ e.2 < c.numClbits + c.missingBits

theorem outputError?_eq_none_iff {c : Circuit S} : c.outputError? = none ↔
    ∀ e ∈ c.outputPermutation.entries, e.1 < c.numTotalQubits ∧ e.2 < c.numClbits := by
  rw [outputError?, List.findSome?_eq_none_iff]
  refine forall₂_congr fun e _ => ?_
  simp [qubitError?, clbitError?, Option.or_eq_none_iff]

theorem outputError?_withMissingBits (c : Circuit S) (name : String) :
    (c.withMissingBits name).outputError? = none ↔ c.IsOutputInRange := by
  have parts : (c.withMissingBits name).outputPermutation = c.outputPermutation ∧
      (c.withMissingBits name).numTotalQubits = c.numTotalQubits := by
    unfold withMissingBits
    split <;> exact ⟨rfl, rfl⟩
  rw [outputError?_eq_none_iff, parts.1, parts.2, numClbits_withMissingBits, IsOutputInRange]

/-! ## Measuring -/

variable [Scalar S]

/-- A barrier over the qubits that are not ancillary, and a measurement of each physical qubit of
the output permutation into the bit of its logical qubit, in the order of the physical qubits. -/
def outputMeasurements (c : Circuit S) : List (Operation S) :=
  .standard ⟨.barrier, .empty, List.range c.numQubits, []⟩ ::
    c.outputPermutation.entries.map fun e => .nonUnitary (.ofMeasure [e.1] [e.2])

/-- The barrier and the measurements are appended without a check, and they have no variables. -/
theorem barrier_andThen_pushAll (c : Circuit S) :
    (c.barrier.andThen fun c _ => (c.pushAll (c.outputPermutation.entries.map fun e =>
      .nonUnitary (.ofMeasure [e.1] [e.2]))).done ()) =
    ({ c with ops := c.ops ++ c.outputMeasurements } : Circuit S).done () := by
  have unnamed : ∀ l : List (Nat × Nat), Operation.allVariableNames
      (l.map fun e => (.nonUnitary (.ofMeasure [e.1] [e.2]) : Operation S)) = [] := by
    intro l
    induction l with
    | nil => rfl
    | cons e l ih => rw [List.map_cons, Operation.allVariableNames, ih]; rfl
  rw [barrier_eq_push]
  change (Circuit.pushAll _ _).done () = _
  rw [pushAll, foldl_recordVariables, unnamed, outputMeasurements, List.append_cons]
  rfl

/-- A request to measure by the output permutation is refused for the name of the register, or fails
for want of indices, or is refused for an entry after bits were added, or is done. -/
theorem appendMeasurements_cases (c : Circuit S) (name : String) :
    (c.IsNameTaken name ∧ ∃ cause, c.appendMeasurements name = c.refuse cause) ∨
    (¬ c.IsNameTaken name ∧ c.LacksIndices ∧ c.appendMeasurements name = c.fault) ∨
    (¬ c.IsNameTaken name ∧ ¬ c.LacksIndices ∧ ¬ c.IsOutputInRange ∧
      ∃ cause, c.appendMeasurements name = (c.withMissingBits name).refuse cause) ∨
    (¬ c.IsNameTaken name ∧ ¬ c.LacksIndices ∧ c.IsOutputInRange ∧
      c.appendMeasurements name = ({ c.withMissingBits name with
        ops := c.ops ++ c.outputMeasurements } : Circuit S).done ()) := by
  have parts : (c.withMissingBits name).ops = c.ops ∧
      (c.withMissingBits name).outputMeasurements = c.outputMeasurements := by
    unfold withMissingBits
    split <;> exact ⟨rfl, rfl⟩
  rcases c.provideBits_cases name with ⟨taken, cause, refused⟩ | ⟨free, lacks, failed⟩ |
    ⟨free, room, provided⟩
  · exact .inl ⟨taken, cause, by rw [appendMeasurements, refused]; rfl⟩
  · exact .inr (.inl ⟨free, lacks, by rw [appendMeasurements, failed]; rfl⟩)
  · rw [appendMeasurements, provided]
    dsimp only [done, Outcome.andThen]
    cases error : (c.withMissingBits name).outputError? with
    | some cause =>
        have outside : ¬ c.IsOutputInRange := fun inRange => by
          simp [(c.outputError?_withMissingBits name).mpr inRange] at error
        exact .inr (.inr (.inl ⟨free, room, outside, cause, rfl⟩))
    | none =>
        have inRange := (c.outputError?_withMissingBits name).mp error
        refine .inr (.inr (.inr ⟨free, room, inRange, ?_⟩))
        rw [← parts.1, ← parts.2]
        exact barrier_andThen_pushAll _

/-- A request to measure by the output permutation is done exactly if missing bits can be added and
all entries are in range then.  It appends one barrier and one measurement for each entry, in
ascending order of the physical qubits and into bits that are there.  It is all or nothing exactly
if no bits are missing, or they cannot be added, or all entries are in range. -/
theorem appendMeasurements_all_or_nothing_iff (c : Circuit S) (name : String) :
    ((c.appendMeasurements name).answer = .ok () ↔
      ¬ c.IsNameTaken name ∧ ¬ c.LacksIndices ∧ c.IsOutputInRange) ∧
    ((c.appendMeasurements name).answer = .error .fault ↔
      ¬ c.IsNameTaken name ∧ c.LacksIndices) ∧
    ((c.appendMeasurements name).answer = .ok () →
      (c.appendMeasurements name).circuit = { c.withMissingBits name with
        ops := c.ops ++ .standard ⟨.barrier, .empty, List.range c.numQubits, []⟩ ::
          c.outputPermutation.entries.map fun e => .nonUnitary (.ofMeasure [e.1] [e.2]) } ∧
      c.outputPermutation.keys.Pairwise (· < ·) ∧
      ∀ e ∈ c.outputPermutation.entries, e.2 < (c.appendMeasurements name).circuit.numClbits) ∧
    ((c.appendMeasurements name).answer = .ok () ∨ (c.appendMeasurements name).circuit = c ↔
      c.missingBits = 0 ∨ c.IsNameTaken name ∨ c.LacksIndices ∨ c.IsOutputInRange) := by
  rcases c.appendMeasurements_cases name with ⟨taken, cause, equal⟩ | ⟨free, lacks, equal⟩ |
    ⟨free, room, outside, cause, equal⟩ | ⟨free, room, inRange, equal⟩
  · simp [equal, refuse, taken]
  · simp [equal, fault, free, lacks]
  · simp [equal, refuse, free, room, outside, withMissingBits_eq_iff]
  · have bits : ∀ e ∈ c.outputPermutation.entries, e.2 < (c.withMissingBits name).numClbits := by
      intro e mem
      rw [numClbits_withMissingBits]
      exact (inRange e mem).2
    have ascending := c.outputPermutation.pairwise_keys_lt
    rw [equal]
    refine ⟨?_, ?_, fun _ => ⟨rfl, ascending, bits⟩, ?_⟩
    · simp [done, free, room, inRange]
    · simp [done, room]
    · simp [done, inRange]

/-- The first of two qubits is removed and added again without an output, so only the second one is
to be measured, into the second bit.  The one bit that is added is not enough, and it stays when the
request is refused. -/
theorem not_appendMeasurements_all_or_nothing :
    let two : Circuit Float := (blank Config.default).insertQubits 2 "q"
    let c := ((two.removeQubit 0).circuit.addQubit 0 0 none).circuit
    c.outputPermutation.entries = [(1, 1)] ∧
      (c.appendMeasurements "m").answer =
        .error (.refused (.clbitOutOfRange 1 1 (some "measure"))) ∧
      c.cregs.entries = [] ∧
      (c.appendMeasurements "m").circuit.cregs.entries = [("m", ⟨0, 1⟩)] ∧
      (c.appendMeasurements "m").circuit ≠ c := by
  intro two c
  have before : c.cregs.entries = [] := by decide +kernel
  have after : (c.appendMeasurements "m").circuit.cregs.entries = [("m", ⟨0, 1⟩)] := by
    decide +kernel
  refine ⟨by decide +kernel, by decide +kernel, before, after, fun same => ?_⟩
  rw [same, before] at after
  contradiction

end QuantumCircuit.Circuit
