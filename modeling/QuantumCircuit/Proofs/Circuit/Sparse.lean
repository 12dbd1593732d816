import QuantumCircuit.Proofs.Circuit.Addition
import QuantumCircuit.Proofs.Circuit.Layout
import QuantumCircuit.Proofs.Circuit.Reachable
import QuantumCircuit.Proofs.Registers.Ranges

/-!
# Steps that leave gaps

Single qubits come and go on physical indices of choice, and the other qubits keep theirs.  So there
can be gaps, and a logical index can be held twice.  What remains is that the registers cover the
keys of the initial layout, each of them once, and that the counts add up.

That is enough for removals: one is refused only if no qubit holds the logical index, and it breaks
off only if the count that the qubit is taken from is zero.
-/

namespace QuantumCircuit

open Registers SortedMap

variable {S : Type}

/-- Whether a step leaves the indices of other qubits as they are, puts no qubit on the last index,
and does not break off where it counts qubits down. -/
def Step.Unshifted (c : Circuit S) : Step S → Prop
  | .addQubitRegister _ _ => False
  | .addClassicalRegister _ _ => False
  | .addAncillaryRegister _ _ => False
  | .addQubit logical physical output =>
      (c.addQubit logical physical output).answer = .ok () → physical < maxIndex
  | .addAncillaryQubit physical output =>
      (c.addAncillaryQubit physical output).answer = .ok () → physical < maxIndex
  | .removeQubit logical => (c.removeQubit logical).answer ≠ .error .fault
  | .markAncillary _ _ => True
  | .markGarbage _ _ => True
  | .unifyRegisters _ => False
  | .stripIdle force closing => closing = false ∧ (c.stripIdle force false).answer ≠ .error .fault
  | .program _ _ _ => True

namespace Circuit

/-- The bookkeeping of a circuit in which indices may be left out. -/
structure Sparse (c : Circuit S) : Prop where
  /-- No quantum register is empty or reaches the last index. -/
  proper_qregs : c.qregs.Proper
  /-- No ancillary register is empty or reaches the last index. -/
  proper_ancregs : c.ancregs.Proper
  /-- Quantum and ancillary registers together cover every key of the initial layout once, and
  nothing else. -/
  tiles : ∀ p, coverCount c.qregs p + coverCount c.ancregs p =
    if c.initialLayout.contains p then 1 else 0
  /-- Only qubits of the initial layout have an output. -/
  held_of_output : ∀ p, c.outputPermutation.contains p = true → c.initialLayout.contains p = true
  /-- The registers hold as many qubits as are counted. -/
  totalSize_eq : totalSize c.qregs + totalSize c.ancregs = c.numQubits + c.numAncillae

variable {c next : Circuit S}

/-- No qubit is covered twice. -/
theorem Sparse.coverCount_le (sparse : c.Sparse) (p : Nat) :
    coverCount c.qregs p ≤ 1 ∧ coverCount c.ancregs p ≤ 1 := by
  have once := sparse.tiles p
  split at once <;> omega

/-- A physical qubit that is not held is not covered. -/
theorem Sparse.uncovered (sparse : c.Sparse) {p : Nat}
    (absent : c.initialLayout.contains p = false) :
    coverCount c.qregs p = 0 ∧ coverCount c.ancregs p = 0 := by
  have none := sparse.tiles p
  rw [absent, if_neg Bool.false_ne_true] at none
  omega

/-! ## New circuits -/

theorem sparse_blank [Scalar S] (config : Config) : (blank config : Circuit S).Sparse where
  proper_qregs := all_empty
  proper_ancregs := all_empty
  tiles p := by simp [blank]
  held_of_output p output := by simp [blank] at output
  totalSize_eq := rfl

theorem sparse_insertQubits [Scalar S] (config : Config) {n : Nat} (positive : 0 < n)
    (small : n ≤ maxIndex) (name : String) :
    ((blank config : Circuit S).insertQubits n name).Sparse where
  proper_qregs := all_empty.insert name ⟨positive, (Nat.zero_add n).trans_le small⟩
  proper_ancregs := all_empty
  tiles p := by
    change coverCount (growRegister .empty name 0 n) p =
      if (extendLayout .empty 0 n).contains p then 1 else 0
    rw [coverCount_growRegister all_empty ((Nat.zero_add n).trans_le small) rfl, coverCount_empty,
      Nat.zero_add]
    exact if_congr (by simp [contains_extendLayout]) rfl rfl
  held_of_output p output := output
  totalSize_eq := by
    change totalSize (growRegister .empty name 0 n) = 0 + n + 0
    rw [totalSize_growRegister n rfl]
    exact wrapIndex_of_le ((Nat.zero_add n).trans_le small)

theorem Sparse.insertClbits (sparse : c.Sparse) (n : Nat) (name : String) :
    (c.insertClbits n name).Sparse :=
  ⟨sparse.proper_qregs, sparse.proper_ancregs, sparse.tiles, sparse.held_of_output,
    sparse.totalSize_eq⟩

theorem Sparse.of_ofConfig? [Scalar S] {config : Config} (built : ofConfig? config = some c) :
    c.Sparse := by
  obtain ⟨small, -⟩ := ofConfig?_le built
  rcases ofConfig?_cases built with ⟨bare, rfl | ⟨positive, rfl⟩, rfl | rfl⟩
  · exact sparse_blank config
  · exact (sparse_blank config).insertClbits _ _
  · exact sparse_insertQubits config positive small _
  · exact (sparse_insertQubits config positive small _).insertClbits _ _

/-! ## Additions -/

/-- One more qubit on a free physical index keeps the bookkeeping. -/
theorem Sparse.extended (sparse : c.Sparse) {p l : Nat} {output : Option Nat}
    (absent : c.initialLayout.contains p = false) (properQ : next.qregs.Proper)
    (properA : next.ancregs.Proper)
    (cover : ∀ i, coverCount next.qregs i + coverCount next.ancregs i =
      (coverCount c.qregs i + coverCount c.ancregs i) + if i = p then 1 else 0)
    (layout : next.initialLayout = c.initialLayout.insert p l)
    (outputs : next.outputPermutation = insertOutput c.outputPermutation p output)
    (sizes : totalSize next.qregs + totalSize next.ancregs =
      (totalSize c.qregs + totalSize c.ancregs) + 1)
    (counts : next.numQubits + next.numAncillae = (c.numQubits + c.numAncillae) + 1) :
    next.Sparse := by
  refine ⟨properQ, properA, fun i => ?_, fun i held => ?_, ?_⟩
  · rw [cover, sparse.tiles, layout]
    by_cases same : i = p
    · subst same
      rw [absent, if_pos rfl, if_pos (contains_insert.mpr (.inl rfl))]
      rfl
    · rw [if_neg same, Nat.add_zero]
      refine if_congr ?_ rfl rfl
      rw [contains_insert]
      exact (or_iff_right same).symm
  · rw [layout, contains_insert]
    rw [outputs] at held
    cases output with
    | none => exact .inr (sparse.held_of_output i held)
    | some o => exact (contains_insert.mp held).imp_right (sparse.held_of_output i)
  · rw [sizes, counts, sparse.totalSize_eq]

theorem Sparse.addQubit (sparse : c.Sparse) {logical physical : Nat} {output : Option Nat}
    (small : (c.addQubit logical physical output).answer = .ok () → physical < maxIndex) :
    (c.addQubit logical physical output).circuit.Sparse := by
  rcases addQubit_cases c logical physical output with ⟨_, failed⟩ | ⟨absent, _, _, added⟩
  · rw [failed]
    exact sparse
  · have below := small (congrArg Outcome.answer added)
    have fit := sparse.proper_qregs.fit
    rw [added]
    refine sparse.extended absent
      (sparse.proper_qregs.add lasting_proper ⟨Nat.one_pos, Register.fits_single below⟩ _)
      sparse.proper_ancregs (fun i => ?_) rfl rfl ?_ (Nat.add_right_comm _ _ _)
    · change coverCount (add c.qregs physical c.qregName) i + coverCount c.ancregs i = _
      rw [coverCount_add fit below, Nat.add_right_comm]
    · change totalSize (add c.qregs physical c.qregName) + totalSize c.ancregs = _
      rw [totalSize_add_of_free fit (fun i => (sparse.coverCount_le i).1)
        (sparse.uncovered absent).1 below, Nat.add_right_comm]

theorem Sparse.addAncillaryQubit (sparse : c.Sparse) {physical : Nat} {output : Option Nat}
    (small : (c.addAncillaryQubit physical output).answer = .ok () → physical < maxIndex) :
    (c.addAncillaryQubit physical output).circuit.Sparse := by
  rcases addAncillaryQubit_cases c physical output with ⟨_, failed⟩ | ⟨absent, _, added⟩
  · rw [failed]
    exact sparse
  · have below := small (congrArg Outcome.answer added)
    have fit := sparse.proper_ancregs.fit
    rw [added]
    refine sparse.extended absent sparse.proper_qregs
      (sparse.proper_ancregs.add lasting_proper ⟨Nat.one_pos, Register.fits_single below⟩ _)
      (fun i => ?_) rfl rfl ?_ (Nat.add_assoc _ _ _).symm
    · change coverCount c.qregs i + coverCount (add c.ancregs physical c.ancregName) i = _
      rw [coverCount_add fit below, Nat.add_assoc]
    · change totalSize c.qregs + totalSize (add c.ancregs physical c.ancregName) = _
      rw [totalSize_add_of_free fit (fun i => (sparse.coverCount_le i).2)
        (sparse.uncovered absent).2 below, Nat.add_assoc]

/-! ## Marks -/

theorem Sparse.markGarbage (sparse : c.Sparse) (lo hi : Nat) :
    (c.markGarbage lo hi).circuit.Sparse := by
  unfold Circuit.markGarbage
  split
  · exact sparse
  · split
    · exact sparse
    · exact ⟨sparse.proper_qregs, sparse.proper_ancregs, sparse.tiles,
        sparse.held_of_output, sparse.totalSize_eq⟩

/-- Moving a qubit to the ancillary registers succeeds, and between the registers nothing gets
lost. -/
theorem Sparse.moveToAncillae (sparse : c.Sparse) (p : Nat) :
    ∃ next : Circuit S, c.moveToAncillae p = next.done () ∧ next.Sparse := by
  unfold Circuit.moveToAncillae
  by_cases uncovered : coverCount c.qregs p = 0
  · rw [locate?_eq_none_iff.mpr uncovered]
    exact ⟨c, rfl, sparse⟩
  · rcases exists_takeOut uncovered with ⟨name, offset, qregs, located, removed⟩
    have below : p < maxIndex := by
      by_contra last
      exact uncovered (coverCount_of_le (Nat.le_of_not_lt last))
    have fit := sparse.proper_ancregs.fit
    have free : coverCount c.ancregs p = 0 := by
      have once := sparse.tiles p
      split at once <;> omega
    simp only [located, removed]
    refine ⟨_, rfl, sparse.proper_qregs.remove lasting_proper removed,
      sparse.proper_ancregs.add lasting_proper ⟨Nat.one_pos, Register.fits_single below⟩ _,
      fun i => ?_, sparse.held_of_output, ?_⟩
    · have before := coverCount_remove removed i
      change coverCount qregs i + coverCount (add c.ancregs p c.ancregName) i =
        if c.initialLayout.contains i then 1 else 0
      rw [← sparse.tiles i, coverCount_add fit below]
      omega
    · have before := totalSize_remove_of_once sparse.proper_qregs.fit
        (fun i => (sparse.coverCount_le i).1) removed
      have counted := sparse.totalSize_eq
      change totalSize qregs + totalSize (add c.ancregs p c.ancregName) =
        c.numQubits + c.numAncillae
      rw [totalSize_add_of_free fit (fun i => (sparse.coverCount_le i).2) free below]
      omega

theorem Sparse.makeAncilla (sparse : c.Sparse) (l p : Nat) :
    (c.makeAncilla l p).circuit.Sparse := by
  rcases sparse.moveToAncillae p with ⟨moved, done, movedSparse⟩
  rw [Circuit.makeAncilla, done]
  change (if moved.numQubits = 0 then _ else _ : Outcome S Unit).circuit.Sparse
  split
  -- Breaking off here leaves the qubit moved, which by itself keeps the bookkeeping.
  · exact movedSparse
  · next positive =>
      refine ⟨movedSparse.proper_qregs, movedSparse.proper_ancregs, movedSparse.tiles,
        movedSparse.held_of_output, ?_⟩
      have counted := movedSparse.totalSize_eq
      change totalSize moved.qregs + totalSize moved.ancregs =
        moved.numQubits - 1 + (moved.numAncillae + 1)
      omega

theorem Sparse.markAncillary (sparse : c.Sparse) (lo hi : Nat) :
    (c.markAncillary lo hi).circuit.Sparse :=
  markAncillary_keeps Sparse (fun _ l p before => before.makeAncilla l p) sparse lo hi

/-! ## Removals -/

/-- The count from which a removal takes a qubit. -/
def removalCount (c : Circuit S) (logical physical : Nat) : Nat :=
  if c.physicalIsAncillary physical || c.logicalIsAncillary logical then c.numAncillae
  else c.numQubits

/-- A circuit whose registers gave up a physical qubit. -/
structure Vacated (c next : Circuit S) (p : Nat) : Prop where
  /-- No quantum register is left empty or reaches the last index. -/
  proper_qregs : next.qregs.Proper
  /-- No ancillary register is left empty or reaches the last index. -/
  proper_ancregs : next.ancregs.Proper
  /-- The qubit is covered once less, and the others as before. -/
  cover : ∀ i, ((coverCount next.qregs i + coverCount next.ancregs i) + if i = p then 1 else 0) =
    coverCount c.qregs i + coverCount c.ancregs i
  /-- The registers hold one qubit less. -/
  totalSize_eq : (totalSize next.qregs + totalSize next.ancregs) + 1 =
    totalSize c.qregs + totalSize c.ancregs
  /-- Nothing else changes. -/
  rest : next = { c with qregs := next.qregs, ancregs := next.ancregs }

/-- A held qubit is taken out of the register that covers it, and then counted down. -/
theorem Sparse.vacate (sparse : c.Sparse) (l : Nat) {p : Nat}
    (held : c.initialLayout.contains p = true) : ∃ next, c.Vacated next p ∧
      (if c.physicalIsAncillary p then c.releaseAncilla p else c.releaseQubit l p) =
        if c.physicalIsAncillary p || c.logicalIsAncillary l then next.dropAncilla
        else next.dropQubit := by
  cases ancillary : c.physicalIsAncillary p with
  | true =>
      rcases exists_takeOut (covers_iff.mp ancillary) with ⟨name, offset, ancregs, located, removed⟩
      have size := totalSize_remove_of_once sparse.proper_ancregs.fit
        (fun i => (sparse.coverCount_le i).2) removed
      refine ⟨{ c with ancregs }, ⟨sparse.proper_qregs,
        sparse.proper_ancregs.remove lasting_proper removed, fun i => ?_, ?_, rfl⟩, ?_⟩
      · rw [← coverCount_remove removed i, Nat.add_assoc]
      · rw [← size, Nat.add_assoc]
      · simp only [releaseAncilla, located, removed, if_true, Bool.true_or]
  | false =>
      have once := sparse.tiles p
      rw [covers_eq_false_iff.mp ancillary, if_pos held, Nat.add_zero] at once
      have covered : coverCount c.qregs p ≠ 0 := by
        rw [once]
        exact Nat.one_ne_zero
      rcases exists_takeOut covered with ⟨name, offset, qregs, located, removed⟩
      have size := totalSize_remove_of_once sparse.proper_qregs.fit
        (fun i => (sparse.coverCount_le i).1) removed
      refine ⟨{ c with qregs }, ⟨sparse.proper_qregs.remove lasting_proper removed,
        sparse.proper_ancregs, fun i => ?_, ?_, rfl⟩, ?_⟩
      · rw [← coverCount_remove removed i, Nat.add_right_comm]
      · rw [← size, Nat.add_right_comm]
      · simp only [releaseQubit, located, removed, Bool.false_eq_true, if_false, Bool.false_or]

/-- Counting down and forgetting a qubit that the registers gave up keeps the bookkeeping. -/
theorem Vacated.sparse {p : Nat} (vacated : c.Vacated next p) (sparse : c.Sparse) (l : Nat)
    {numQubits numAncillae : Nat}
    (counted : (numQubits + numAncillae) + 1 = c.numQubits + c.numAncillae) :
    (({ next with numQubits, numAncillae } : Circuit S).forgetQubit l p).circuit.Sparse := by
  have layout : next.initialLayout = c.initialLayout := by rw [vacated.rest]
  have outputs : next.outputPermutation = c.outputPermutation := by rw [vacated.rest]
  refine ⟨vacated.proper_qregs, vacated.proper_ancregs, fun i => ?_, fun i output => ?_, ?_⟩
  · have before := vacated.cover i
    rw [sparse.tiles] at before
    change coverCount next.qregs i + coverCount next.ancregs i =
      if (next.initialLayout.erase p).contains i then 1 else 0
    rw [layout, if_congr contains_erase rfl rfl]
    by_cases same : i = p
    · -- It was covered at most once, and the register that gave it up covered it.
      rw [if_pos same] at before
      rw [if_neg fun both => both.1 same]
      split at before <;> omega
    · rw [if_neg same, Nat.add_zero] at before
      rw [before]
      exact if_congr (and_iff_right same).symm rfl rfl
  · change (next.initialLayout.erase p).contains i = true
    change (next.outputPermutation.erase p).contains i = true at output
    rw [layout, contains_erase]
    rw [outputs, contains_erase] at output
    exact output.imp_right (sparse.held_of_output i)
  · have before := vacated.totalSize_eq
    have total := sparse.totalSize_eq
    change totalSize next.qregs + totalSize next.ancregs = numQubits + numAncillae
    omega

/-- A held logical qubit is removed, with the first physical qubit that holds it, unless the count
that it is taken from is zero. -/
theorem Sparse.removeQubit (sparse : c.Sparse) {l p : Nat} (found : c.physicalOf? l = some p) :
    (c.removalCount l p = 0 ∧ ∃ left : Circuit S, c.removeQubit l = left.fault ∧
      (left.numQubits = 0 ∨ left.numAncillae = 0)) ∨
    (c.removalCount l p ≠ 0 ∧ ∃ next : Circuit S,
      c.removeQubit l = next.done (p, c.outputPermutation.find? p) ∧ next.Sparse) := by
  have held : c.initialLayout.contains p = true :=
    contains_iff_find?.mpr ⟨l, find?_of_physicalOf? found⟩
  obtain ⟨next, vacated, released⟩ := sparse.vacate l held
  have numQubits : next.numQubits = c.numQubits := by rw [vacated.rest]
  have numAncillae : next.numAncillae = c.numAncillae := by rw [vacated.rest]
  have outputs : next.outputPermutation = c.outputPermutation := by rw [vacated.rest]
  have removed : c.removeQubit l =
      (if c.physicalIsAncillary p || c.logicalIsAncillary l then next.dropAncilla
        else next.dropQubit).andThen fun c _ => c.forgetQubit l p := by
    rw [Circuit.removeQubit, found, ← released]
  rw [removed, removalCount, ← outputs, ← numAncillae, ← numQubits]
  split
  · unfold dropAncilla
    split
    · next none => exact .inl ⟨none, next, rfl, .inr none⟩
    · next some =>
        refine .inr ⟨some, _, rfl, ?_⟩
        exact vacated.sparse sparse l (by omega)
  · unfold dropQubit
    split
    · next none => exact .inl ⟨none, next, rfl, .inl none⟩
    · next some =>
        refine .inr ⟨some, _, rfl, ?_⟩
        exact vacated.sparse sparse l (by omega)

/-- Removing qubits one after the other, without closing up, ends with all candidates dealt with
unless a count drops to zero. -/
theorem Sparse.stripFrom (sparse : c.Sparse) (force : Bool) (candidates : List Nat) :
    let last := stripFrom force false c candidates
    (last.answer = .ok () ∧ last.circuit.Sparse) ∨
    (last.answer = .error .fault ∧
      (last.circuit.numQubits = 0 ∨ last.circuit.numAncillae = 0)) := by
  induction candidates generalizing c with
  | nil => exact .inl ⟨rfl, sparse⟩
  | cons p rest ih =>
      rw [Circuit.stripFrom]
      split
      · exact ih sparse
      · next l held =>
          split
          · exact ih sparse
          · -- The holder that is found can be another one than the candidate.
            cases found : c.physicalOf? l with
            | none => exact absurd held (physicalOf?_eq_none_iff.mp found p)
            | some holder =>
                rcases sparse.removeQubit found with
                  ⟨_, left, broken, none⟩ | ⟨_, next, removed, nextSparse⟩
                · rw [broken]
                  exact .inr ⟨rfl, none⟩
                · rw [removed]
                  exact ih nextSparse

/-! ## Reachable circuits -/

/-- Each step that leaves the indices of other qubits as they are keeps the bookkeeping. -/
theorem Sparse.run (sparse : c.Sparse) {s : Step S} (unshifted : s.Unshifted c) :
    (s.run c).Sparse := by
  cases s with
  | addQubitRegister n name => contradiction
  | addClassicalRegister n name => contradiction
  | addAncillaryRegister n name => contradiction
  | addQubit logical physical output => exact sparse.addQubit unshifted
  | addAncillaryQubit physical output => exact sparse.addAncillaryQubit unshifted
  | removeQubit logical =>
      rw [Step.run]
      cases found : c.physicalOf? logical with
      | none =>
          rw [Circuit.removeQubit, found]
          exact sparse
      | some holder =>
          rcases sparse.removeQubit found with
            ⟨_, left, broken, _⟩ | ⟨_, next, removed, nextSparse⟩
          · exact absurd (congrArg Outcome.answer broken) unshifted
          · rw [removed]
            exact nextSparse
  | markAncillary lo hi => exact sparse.markAncillary lo hi
  | markGarbage lo hi => exact sparse.markGarbage lo hi
  | unifyRegisters name => contradiction
  | stripIdle force closing =>
      rcases unshifted with ⟨rfl, whole⟩
      rcases sparse.stripFrom force c.initialLayout.keys.reverse with
        ⟨_, lastSparse⟩ | ⟨broken, _⟩
      · exact lastSparse
      · exact absurd broken whole
  | program ops variableNames globalPhase =>
      exact ⟨sparse.proper_qregs, sparse.proper_ancregs, sparse.tiles,
        sparse.held_of_output, sparse.totalSize_eq⟩

variable [Scalar S]

/-- However single qubits come and go, as long as none is put on the last index, registers, layouts
and counts agree.  A removal is refused exactly for a logical qubit that is not held, and stripping
never is; they break off only at a count of zero. -/
theorem unshifted_consistent (reached : Reachable Step.Unshifted c) :
    c.Sparse ∧
    (∀ l, (∀ p, c.initialLayout.find? p ≠ some l) →
      c.removeQubit l = c.refuse (.logicalQubitNotFound l)) ∧
    (∀ l, (∃ p, c.initialLayout.find? p = some l) → ∃ p, c.physicalOf? l = some p ∧
      (c.removeQubit l).answer =
        if c.removalCount l p = 0 then .error .fault
        else .ok (p, c.outputPermutation.find? p)) ∧
    ∀ force, let last := c.stripIdle force false
      last.answer = .ok () ∨ (last.answer = .error .fault ∧
        (last.circuit.numQubits = 0 ∨ last.circuit.numAncillae = 0)) := by
  have sparse : c.Sparse :=
    reached.invariant Sparse.of_ofConfig? fun unshifted sparse => sparse.run unshifted
  refine ⟨sparse, fun l absent => ?_, fun l held => ?_, fun force => ?_⟩
  · rw [Circuit.removeQubit, physicalOf?_eq_none_iff.mpr absent]
  · cases found : c.physicalOf? l with
    | none =>
        rcases held with ⟨p, held⟩
        exact absurd held (physicalOf?_eq_none_iff.mp found p)
    | some holder =>
        refine ⟨holder, rfl, ?_⟩
        rcases sparse.removeQubit found with ⟨zero, left, broken, _⟩ | ⟨positive, next, removed, _⟩
        · rw [if_pos zero, broken]
          rfl
        · rw [if_neg positive, removed]
          rfl
  · exact (sparse.stripFrom force c.initialLayout.keys.reverse).imp_left And.left

/-- Of three qubits the second is removed after a logical qubit of the same index has been added
further up; then an ancillary qubit is added, and a qubit is made ancillary. -/
theorem unshifted_consistent_gaps : ∃ c : Circuit Float, Reachable Step.Unshifted c ∧
    c.initialLayout.entries = [(0, 0), (2, 2), (5, 1), (7, 3)] ∧ c.Sparse ∧
    c.removeQubit 4 = c.refuse (.logicalQubitNotFound 4) ∧
    (c.removeQubit 1).answer = .ok (5, some 1) ∧ (c.stripIdle true false).answer = .ok () := by
  have new : Reachable Step.Unshifted ((blank Config.default : Circuit Float).insertQubits 3 "q") :=
    have built : ofConfig? { Config.default with numQubits := 3 } = _ := rfl
    .start built
  have twice := new.step (s := .addQubit 1 5 (some 1)) fun _ => by decide
  let full : Circuit Float :=
    (((blank Config.default).insertQubits 3 "q").addQubit 1 5 (some 1)).circuit
  have whole : (full.removeQubit 1).answer ≠ .error .fault := by decide +kernel
  have removed := twice.step (s := .removeQubit 1) whole
  have extended := removed.step (s := .addAncillaryQubit 7 none) fun _ => by decide
  let c : Circuit Float :=
    (((full.removeQubit 1).circuit.addAncillaryQubit 7 none).circuit.markAncillary 0 0).circuit
  have marked : Reachable Step.Unshifted c := extended.step (s := .markAncillary 0 0) trivial
  obtain ⟨sparse, refused, done, stripped⟩ := unshifted_consistent marked
  refine ⟨c, marked, by decide +kernel, sparse, refused 4 fun p held => ?_, ?_,
    (stripped true).resolve_right (by decide +kernel)⟩
  · have others : ∀ e ∈ c.initialLayout.entries, e.2 ≠ 4 := by decide +kernel
    exact others (p, 4) (mem_entries_of_find? held) rfl
  · rcases done 1 ⟨5, by decide +kernel⟩ with ⟨p, found, answer⟩
    have first : c.physicalOf? 1 = some 5 := by decide +kernel
    obtain rfl := Option.some.inj (found.symm.trans first)
    rw [answer]
    decide +kernel

end Circuit

end QuantumCircuit
