import Mathlib.Data.List.InsertIdx
import QuantumCircuit.Proofs.Circuit.Removal
import QuantumCircuit.Proofs.Circuit.Sparse

/-!
# Undoing additions and removals

A qubit that is added can be removed again, and one that is removed can be added again.  The places
that are put into the lists of marks and taken out of them are the same, the layouts gain and lose
one entry, and a count goes up and down.  The quantum registers may be cut differently afterwards,
because an index can join another register than the one it came from, but together they cover the
same indices.
-/

namespace QuantumCircuit

open Registers SortedMap

variable {S : Type}

namespace Circuit

/-- The bookkeeping on which additions and removals undo each other. -/
structure Anchored (c : Circuit S) : Prop where
  /-- No quantum register is empty or reaches the last index. -/
  proper_qregs : c.qregs.Proper
  /-- No ancillary register is empty or reaches the last index. -/
  proper_ancregs : c.ancregs.Proper
  /-- Quantum and ancillary registers together cover every key of the initial layout once, and
  nothing else. -/
  tiles : ∀ p, coverCount c.qregs p + coverCount c.ancregs p =
    if c.initialLayout.contains p then 1 else 0
  /-- Only qubits of the initial layout have an output. -/
  held_of_output : ∀ p, c.outputPermutation.contains p = true → c.initialLayout.contains p = true
  /-- Physical indices stay below the greatest index. -/
  physical_lt : ∀ p, c.initialLayout.contains p = true → p < maxIndex
  /-- There are as many marks of the one kind as of the other. -/
  length_garbage : c.garbage.length = c.ancillary.length
  /-- Every qubit that is counted has its marks. -/
  total_le : c.numTotalQubits ≤ c.ancillary.length

/-- Where indices may be left out, it takes marks for all qubits, and indices that are not too
large. -/
theorem Sparse.anchored {c : Circuit S} (sparse : c.Sparse)
    (below : ∀ e ∈ c.initialLayout.entries, e.1 < maxIndex)
    (length_garbage : c.garbage.length = c.ancillary.length)
    (total_le : c.numTotalQubits ≤ c.ancillary.length) : c.Anchored where
  proper_qregs := sparse.proper_qregs
  proper_ancregs := sparse.proper_ancregs
  tiles := sparse.tiles
  held_of_output := sparse.held_of_output
  physical_lt p held := by
    obtain ⟨l, found⟩ := Option.isSome_iff_exists.mp held
    exact below (p, l) (mem_entries_of_find? found)
  length_garbage := length_garbage
  total_le := total_le

/-- A logical qubit without marks that one physical qubit holds, which lies in a quantum register.
-/
structure Plain (c : Circuit S) (l p : Nat) : Prop where
  /-- The physical qubit holds the logical one. -/
  held : c.initialLayout.find? p = some l
  /-- No other physical qubit does. -/
  only : ∀ q, c.initialLayout.find? q = some l → q = p
  /-- A quantum register covers the physical qubit. -/
  covered : covers c.qregs p = true
  /-- The logical index is below the number of qubits that are not ancillary. -/
  lt : l < c.numQubits
  /-- The logical qubit is not ancillary. -/
  notAncilla : c.logicalIsAncillary l = false
  /-- The logical qubit is not garbage. -/
  notGarbage : c.logicalIsGarbage l = false

variable {c : Circuit S} {l p : Nat}

/-! ## Marks -/

/-- A place that is put into a list of marks is not marked. -/
theorem getD_insertIdx_self {flags : List Bool} (le : l ≤ flags.length) :
    (flags.insertIdx l false).getD l false = false := by
  rw [List.getD_eq_getElem?_getD, List.getElem?_insertIdx_self, if_pos le]
  rfl

/-- A place that is not marked can be taken out of a list of marks and put in again. -/
theorem insertIdx_eraseIdx {flags : List Bool} (lt : l < flags.length)
    (unmarked : flags.getD l false = false) : (flags.eraseIdx l).insertIdx l false = flags := by
  have entry : flags[l] = false := by
    rwa [List.getD_eq_getElem?_getD, List.getElem?_eq_getElem lt] at unmarked
  rw [← entry]
  exact List.insertIdx_eraseIdx_getElem lt

theorem le_length_eraseIdx {flags : List Bool} (lt : l < flags.length) :
    l ≤ (flags.eraseIdx l).length := by
  rw [List.length_eraseIdx_of_lt lt]
  exact Nat.le_sub_one_of_lt lt

/-! ## Registers -/

/-- An index that is removed after it was added leaves what was covered. -/
theorem covers_remove_add {regs rest : Registers} {name other : String} (fit : regs.Fit)
    (removed : remove (add regs p name) other p = .ok rest) (i : Nat) :
    covers rest i = covers regs i := by
  obtain ⟨r, -, inside, -⟩ := remove_cases removed
  have before := coverCount_add fit (Register.lt_maxIndex_of_contains inside) name i
  have after := coverCount_remove removed i
  rw [Bool.eq_iff_iff, covers_iff, covers_iff]
  omega

/-- An index that is added after it was removed leaves what was covered. -/
theorem covers_add_remove {regs rest : Registers} {name : String} (fit : regs.Fit) (other : String)
    (removed : remove regs name p = .ok rest) (i : Nat) :
    covers (add rest p other) i = covers regs i := by
  obtain ⟨r, -, inside, -⟩ := remove_cases removed
  have before := coverCount_remove removed i
  have after := coverCount_add (fit.remove lasting_fits removed)
    (Register.lt_maxIndex_of_contains inside) other i
  rw [Bool.eq_iff_iff, covers_iff, covers_iff]
  omega

/-! ## One qubit more, one qubit less -/

/-- The circuit with a logical qubit on a physical one added. -/
def including (c : Circuit S) (l p : Nat) (output : Option Nat) : Circuit S :=
  { c with
    qregs := add c.qregs p c.qregName
    numQubits := c.numQubits + 1
    initialLayout := c.initialLayout.insert p l
    outputPermutation := insertOutput c.outputPermutation p output
    ancillary := c.ancillary.insertIdx l false
    garbage := c.garbage.insertIdx l false }

/-- The circuit with a logical qubit on a physical one removed, and with other quantum registers. -/
def excluding (c : Circuit S) (l p : Nat) (qregs : Registers) : Circuit S :=
  { c with
    qregs
    numQubits := c.numQubits - 1
    initialLayout := c.initialLayout.erase p
    outputPermutation := c.outputPermutation.erase p
    ancillary := c.ancillary.eraseIdx l
    garbage := c.garbage.eraseIdx l }

theorem excluding_including (absent : c.initialLayout.find? p = none)
    (noOutput : c.outputPermutation.find? p = none) (qregs : Registers) :
    (c.including l p none).excluding l p qregs = { c with qregs } := by
  simp only [excluding, including, insertOutput, erase_insert l absent, erase_of_absent noOutput,
    List.eraseIdx_insertIdx_self, Nat.add_sub_cancel]

theorem Plain.including_excluding (plain : c.Plain l p) (inAncillary : l < c.ancillary.length)
    (inGarbage : l < c.garbage.length) (rest : Registers) :
    (c.excluding l p rest).including l p (c.outputPermutation.find? p) =
      { c with qregs := add rest p c.qregName } := by
  have outputs : insertOutput (c.outputPermutation.erase p) p (c.outputPermutation.find? p) =
      c.outputPermutation := by
    cases output : c.outputPermutation.find? p with
    | none => exact erase_of_absent output
    | some o => exact insert_erase output
  have counted : c.numQubits - 1 + 1 = c.numQubits :=
    Nat.sub_add_cancel (Nat.one_le_of_lt plain.lt)
  simp only [including, excluding, outputs, counted, insert_erase plain.held,
    insertIdx_eraseIdx inAncillary plain.notAncilla, insertIdx_eraseIdx inGarbage plain.notGarbage]

/-- A qubit can be added where nothing is in its way. -/
theorem addQubit_of_free (output : Option Nat) (free : c.occupied p = false)
    (small : l ≤ c.numQubits) (ancillary : l ≤ c.ancillary.length)
    (garbage : l ≤ c.garbage.length) :
    c.addQubit l p output = (c.including l p output).done () := by
  have inLists : ¬ (c.ancillary.length < l ∨ c.garbage.length < l) := by omega
  rw [addQubit, free, if_neg Bool.false_ne_true, if_neg (Nat.not_lt.mpr small), if_neg inLists]
  rfl

/-- A plain qubit can be removed. -/
theorem Plain.removeQubit (plain : c.Plain l p) (apart : c.physicalIsAncillary p = false) :
    ∃ name qregs, remove c.qregs name p = .ok qregs ∧
      c.removeQubit l = (c.excluding l p qregs).done (p, c.outputPermutation.find? p) := by
  have first := physicalOf?_of_only plain.held plain.only
  have positive : c.numQubits ≠ 0 := Nat.ne_zero_of_lt plain.lt
  rcases removeQubit_cases c l with ⟨none, -⟩ | ⟨q, found, ⟨-, bare, -⟩ | ⟨ancilla, -⟩ |
    ⟨-, -, name, qregs, removed, released⟩⟩
  · rw [none] at first
    contradiction
  all_goals obtain rfl : q = p := Option.some.inj (found.symm.trans first)
  · rw [plain.covered] at bare
    contradiction
  · rw [apart] at ancilla
    contradiction
  · refine ⟨name, qregs, removed, ?_⟩
    rw [released, plain.notAncilla, if_neg Bool.false_ne_true, dropQubit, if_neg positive]
    rfl

/-! ## Undoing -/

/-- No ancillary register covers a physical qubit that a quantum register covers. -/
theorem Anchored.apart (anchored : c.Anchored) (covered : covers c.qregs p = true) :
    c.physicalIsAncillary p = false := by
  have once := anchored.tiles p
  have some := covers_iff.mp covered
  have atMost : (if c.initialLayout.contains p then 1 else 0) ≤ 1 := by split_ifs <;> omega
  exact covers_eq_false_iff.mpr (by omega)

/-- A qubit added to a logical index that was not held is plain. -/
theorem Anchored.plain_including (anchored : c.Anchored)
    (absent : ∀ q, c.initialLayout.find? q ≠ some l) (below : p < maxIndex)
    (small : l ≤ c.numQubits) (output : Option Nat) : (c.including l p output).Plain l p := by
  have total := anchored.total_le
  have marks := anchored.length_garbage
  have counted : c.numTotalQubits = c.numQubits + c.numAncillae := rfl
  refine ⟨?_, fun q held => ?_, ?_, Nat.lt_succ_of_le small, ?_, ?_⟩
  · exact (find?_insert ..).trans (if_pos rfl)
  · by_contra other
    exact absent q (((find?_insert ..).trans (if_neg other)).symm.trans held)
  · refine covers_iff.mpr ?_
    change coverCount (add c.qregs p c.qregName) p ≠ 0
    rw [coverCount_add anchored.proper_qregs.fit below, if_pos rfl]
    exact Nat.succ_ne_zero _
  · exact getD_insertIdx_self (by omega)
  · exact getD_insertIdx_self (by omega)

/-- A qubit added without an output to a logical index that was not held is removed again, and
nothing else than the cut of the quantum registers can have changed. -/
theorem Anchored.remove_added (anchored : c.Anchored)
    (absent : ∀ q, c.initialLayout.find? q ≠ some l) (below : p < maxIndex)
    (added : (c.addQubit l p none).answer = .ok ()) :
    ∃ qregs : Registers, (∀ i, covers qregs i = covers c.qregs i) ∧
      (c.addQubit l p none).circuit.removeQubit l = done { c with qregs } (p, none) := by
  rcases addQubit_cases c l p none with ⟨failure, failed⟩ | ⟨free, freeOutput, small, grown⟩
  · rw [failed] at added
    contradiction
  · have noOutput := contains_eq_false_iff.mp freeOutput
    have bare : coverCount c.ancregs p = 0 := by
      have once := anchored.tiles p
      rw [free] at once
      exact (Nat.add_eq_zero_iff.mp once).2
    have same : (c.addQubit l p none).circuit = c.including l p none := by
      rw [grown]
      rfl
    rcases (anchored.plain_including absent below small none).removeQubit
      (covers_eq_false_iff.mpr bare) with ⟨name, qregs, taken, removed⟩
    refine ⟨qregs, covers_remove_add anchored.proper_qregs.fit taken, ?_⟩
    rw [same, removed, excluding_including (contains_eq_false_iff.mp free) noOutput qregs]
    exact congrArg (fun output => done { c with qregs } (p, output)) noOutput

/-- A plain qubit that is removed is added again with what its removal answers, and nothing else
than the cut of the quantum registers can have changed. -/
theorem Anchored.add_removed (anchored : c.Anchored) (plain : c.Plain l p) :
    ∃ removed : Circuit S, c.removeQubit l = removed.done (p, c.outputPermutation.find? p) ∧
      ∃ qregs : Registers, (∀ i, covers qregs i = covers c.qregs i) ∧
        removed.addQubit l p (c.outputPermutation.find? p) = done { c with qregs } () := by
  have total := anchored.total_le
  have marks := anchored.length_garbage
  have lt := plain.lt
  have counted : c.numTotalQubits = c.numQubits + c.numAncillae := rfl
  have inAncillary : l < c.ancillary.length := by omega
  have inGarbage : l < c.garbage.length := by omega
  rcases plain.removeQubit (anchored.apart plain.covered) with ⟨name, rest, taken, removed⟩
  have free : (c.excluding l p rest).occupied p = false := by
    refine Bool.or_eq_false_iff.mpr ⟨contains_eq_false_iff.mpr ?_, contains_eq_false_iff.mpr ?_⟩
    · exact (find?_erase ..).trans (if_pos rfl)
    · exact (find?_erase ..).trans (if_pos rfl)
  refine ⟨_, removed, add rest p c.qregName,
    covers_add_remove anchored.proper_qregs.fit c.qregName taken, ?_⟩
  rw [addQubit_of_free _ free (Nat.le_sub_one_of_lt lt) (le_length_eraseIdx inAncillary)
    (le_length_eraseIdx inGarbage), plain.including_excluding inAncillary inGarbage]

/-- Adding a qubit and removing it, and removing a plain qubit and adding it, leave the layouts, the
marks, the counts, the ancillary registers and everything else as they were; the quantum registers
cover the same indices. -/
theorem Anchored.undoing (anchored : c.Anchored) :
    (∀ l p, (∀ q, c.initialLayout.find? q ≠ some l) → p < maxIndex →
      (c.addQubit l p none).answer = .ok () →
      ∃ qregs : Registers, (∀ i, covers qregs i = covers c.qregs i) ∧
        (c.addQubit l p none).circuit.removeQubit l = done { c with qregs } (p, none)) ∧
    ∀ l p, c.Plain l p →
      ∃ removed : Circuit S, c.removeQubit l = removed.done (p, c.outputPermutation.find? p) ∧
        ∃ qregs : Registers, (∀ i, covers qregs i = covers c.qregs i) ∧
          removed.addQubit l p (c.outputPermutation.find? p) = done { c with qregs } () :=
  ⟨fun _ _ absent below added => anchored.remove_added absent below added,
    fun _ _ plain => anchored.add_removed plain⟩

/-- Of four qubits the last is removed after an ancillary one was added further up.  Then the last
is added again elsewhere and taken back, or the second is taken out of its register for a while. -/
theorem undoing_gap :
    let c := Step.runAll ((blank Config.default : Circuit Float).insertQubits 4 "q")
      [.addAncillaryQubit 6 none, .removeQubit 3]
    (∃ qregs : Registers, (∀ i, covers qregs i = covers c.qregs i) ∧
      (c.addQubit 3 4 none).circuit.removeQubit 3 = done { c with qregs } (4, none)) ∧
    ∃ removed : Circuit Float, c.removeQubit 1 = removed.done (1, some 1) ∧
      ∃ qregs : Registers, (∀ i, covers qregs i = covers c.qregs i) ∧
        removed.addQubit 1 1 (some 1) = done { c with qregs } () := by
  intro c
  have built : ofConfig? { Config.default with numQubits := 4 } =
      some ((blank Config.default : Circuit Float).insertQubits 4 "q") := rfl
  have full := (Sparse.of_ofConfig? built).run (s := .addAncillaryQubit 6 none)
    fun _ => by decide
  have sparse : c.Sparse := full.run (s := .removeQubit 3)
    (by unfold Step.Unshifted; decide +kernel)
  have anchored : c.Anchored := sparse.anchored (by decide +kernel) (by decide +kernel)
    (by decide +kernel)
  have distinct : ∀ e ∈ c.initialLayout.entries, e.2 ≠ 3 ∧ (e.2 = 1 → e.1 = 1) := by
    decide +kernel
  have output : c.outputPermutation.find? 1 = some 1 := by decide +kernel
  have plain : c.Plain 1 1 :=
    ⟨by decide +kernel, fun q held => (distinct (q, 1) (mem_entries_of_find? held)).2 rfl,
      by decide +kernel, by decide +kernel, by decide +kernel, by decide +kernel⟩
  refine ⟨anchored.undoing.1 3 4 (fun q held => ?_) (by decide) (by decide +kernel), ?_⟩
  · exact (distinct (q, 3) (mem_entries_of_find? held)).1 rfl
  · rw [← output]
    exact anchored.undoing.2 1 1 plain

end Circuit

end QuantumCircuit
