import QuantumCircuit.Proofs.Circuit.Compact

/-!
# Removing a qubit

A removal is refused without a change, or a register gives up the qubit and a count is lowered
before it is forgotten: `removeQubit_cases` says all that it can do, and `removeQubit_outcome` what
it leaves.  A compact circuit gives up any of its qubits: the removal succeeds, and closing up the
indices behind it leaves a compact circuit with one qubit less.
-/

namespace QuantumCircuit

open Registers SortedMap

namespace Circuit

variable {S : Type} {c : Circuit S}

/-! ## What a removal can do -/

/-- A removal is refused if no qubit holds the logical index, or no register covers the qubit that
does.  Otherwise the register gives up the qubit, a count is lowered, and the qubit is forgotten. -/
theorem removeQubit_cases (c : Circuit S) (l : Nat) :
    (c.physicalOf? l = none ∧ c.removeQubit l = c.refuse (.logicalQubitNotFound l)) ∨
    ∃ p, c.physicalOf? l = some p ∧
      ((c.physicalIsAncillary p = false ∧ covers c.qregs p = false ∧
          c.removeQubit l = c.refuse (.physicalQubitNotInRegister p)) ∨
        (c.physicalIsAncillary p = true ∧
          ∃ name ancregs, remove c.ancregs name p = .ok ancregs ∧
            c.removeQubit l =
              { c with ancregs }.dropAncilla.andThen fun c _ => c.forgetQubit l p) ∨
        (c.physicalIsAncillary p = false ∧ covers c.qregs p = true ∧
          ∃ name qregs, remove c.qregs name p = .ok qregs ∧
            c.removeQubit l =
              (if c.logicalIsAncillary l then { c with qregs }.dropAncilla
                else { c with qregs }.dropQubit).andThen fun c _ => c.forgetQubit l p)) := by
  rw [Circuit.removeQubit]
  cases found : c.physicalOf? l with
  | none => exact .inl ⟨rfl, rfl⟩
  | some p =>
      refine .inr ⟨p, rfl, ?_⟩
      cases ancillary : c.physicalIsAncillary p with
      | true =>
          rcases exists_takeOut (covers_iff.mp ancillary) with
            ⟨name, offset, ancregs, located, removed⟩
          refine .inr (.inl ⟨rfl, name, ancregs, removed, ?_⟩)
          simp only [ancillary, if_true, Circuit.releaseAncilla, located, removed]
      | false =>
          cases covered : covers c.qregs p with
          | false =>
              refine .inl ⟨rfl, rfl, ?_⟩
              have missing := locate?_eq_none_iff.mpr (covers_eq_false_iff.mp covered)
              simp only [ancillary, Bool.false_eq_true, if_false, Circuit.releaseQubit, missing]
              rfl
          | true =>
              rcases exists_takeOut (covers_iff.mp covered) with
                ⟨name, offset, qregs, located, removed⟩
              refine .inr (.inr ⟨rfl, rfl, name, qregs, removed, ?_⟩)
              simp only [ancillary, Bool.false_eq_true, if_false, Circuit.releaseQubit, located,
                removed]

/-- A removal that fails can only have changed registers.  One that is done forgets the first holder
of the logical qubit and counts one qubit less. -/
theorem removeQubit_outcome (c : Circuit S) (l : Nat) :
    (∃ failure qregs ancregs, c.removeQubit l = ⟨{ c with qregs, ancregs }, .error failure⟩) ∨
    ∃ p qregs ancregs numQubits numAncillae, c.physicalOf? l = some p ∧
      (numQubits + numAncillae) + 1 = c.numTotalQubits ∧
      c.removeQubit l = done
        { c with
          qregs, ancregs, numQubits, numAncillae
          initialLayout := c.initialLayout.erase p
          outputPermutation := c.outputPermutation.erase p
          ancillary := c.ancillary.eraseIdx l
          garbage := c.garbage.eraseIdx l } (p, c.outputPermutation.find? p) := by
  rcases removeQubit_cases c l with ⟨_, refused⟩ | ⟨p, found, ⟨_, _, refused⟩ |
    ⟨_, _, ancregs, _, released⟩ | ⟨_, _, _, qregs, _, released⟩⟩
  · exact .inl ⟨_, _, _, refused⟩
  · exact .inl ⟨_, _, _, refused⟩
  · rw [released, dropAncilla]
    split_ifs with zero
    · exact .inl ⟨_, _, _, rfl⟩
    · have less : c.numQubits + (c.numAncillae - 1) + 1 = c.numQubits + c.numAncillae := by
        change ¬ c.numAncillae = 0 at zero
        omega
      exact .inr ⟨p, _, _, _, _, found, less, rfl⟩
  · rw [released, dropAncilla, dropQubit]
    split_ifs with _ zero zero
    · exact .inl ⟨_, _, _, rfl⟩
    · have less : c.numQubits + (c.numAncillae - 1) + 1 = c.numQubits + c.numAncillae := by
        change ¬ c.numAncillae = 0 at zero
        omega
      exact .inr ⟨p, _, _, _, _, found, less, rfl⟩
    · exact .inl ⟨_, _, _, rfl⟩
    · have less : c.numQubits - 1 + c.numAncillae + 1 = c.numQubits + c.numAncillae := by
        change ¬ c.numQubits = 0 at zero
        omega
      exact .inr ⟨p, _, _, _, _, found, less, rfl⟩

/-- A removal takes one index out of a register at most, and does not change the names for new
registers. -/
theorem registers_removeQubit (c : Circuit S) (l : Nat) :
    let next := (c.removeQubit l).circuit
    next.qregName = c.qregName ∧ next.ancregName = c.ancregName ∧
    (next.qregs = c.qregs ∨ ∃ name p, remove c.qregs name p = .ok next.qregs) ∧
    (next.ancregs = c.ancregs ∨ ∃ name p, remove c.ancregs name p = .ok next.ancregs) := by
  rcases removeQubit_cases c l with ⟨-, refused⟩ | ⟨p, -, ⟨-, -, refused⟩ |
    ⟨-, name, ancregs, removed, released⟩ | ⟨-, -, name, qregs, removed, released⟩⟩
  · rw [refused]
    exact ⟨rfl, rfl, .inl rfl, .inl rfl⟩
  · rw [refused]
    exact ⟨rfl, rfl, .inl rfl, .inl rfl⟩
  · rw [released, dropAncilla]
    split_ifs
    · exact ⟨rfl, rfl, .inl rfl, .inr ⟨name, p, removed⟩⟩
    · exact ⟨rfl, rfl, .inl rfl, .inr ⟨name, p, removed⟩⟩
  · have taken : ∃ name p, remove c.qregs name p = .ok qregs := ⟨name, p, removed⟩
    rw [released, dropAncilla, dropQubit]
    split_ifs
    · exact ⟨rfl, rfl, .inr taken, .inl rfl⟩
    · exact ⟨rfl, rfl, .inr taken, .inl rfl⟩
    · exact ⟨rfl, rfl, .inr taken, .inl rfl⟩
    · exact ⟨rfl, rfl, .inr taken, .inl rfl⟩

/-! ## Registers -/

/-- The registers and counts of a circuit that gave up a physical qubit. -/
structure Released (c next : Circuit S) (p : Nat) : Prop where
  /-- The qubit is not counted any more. -/
  total : next.numTotalQubits + 1 = c.numTotalQubits
  /-- The quantum registers cover what they did, without the qubit. -/
  qregs : ∀ i, coverCount next.qregs i = if i = p then 0 else coverCount c.qregs i
  /-- The ancillary registers cover what they did, without the qubit. -/
  ancregs : ∀ i, coverCount next.ancregs i = if i = p then 0 else coverCount c.ancregs i
  /-- The sizes of the quantum registers are counted. -/
  totalSize_qregs : totalSize next.qregs = next.numQubits
  /-- The sizes of the ancillary registers are counted. -/
  totalSize_ancregs : totalSize next.ancregs = next.numAncillae
  /-- The ends of the quantum registers do not wrap around. -/
  fit_qregs : next.qregs.Fit
  /-- The ends of the ancillary registers do not wrap around. -/
  fit_ancregs : next.ancregs.Fit

theorem Compact.releaseAncilla (compact : c.Compact) {p l : Nat}
    (held : c.initialLayout.find? p = some l) (ancillary : c.physicalIsAncillary p = true) :
    ∃ ancregs,
      let next : Circuit S := { c with ancregs, numAncillae := c.numAncillae - 1 }
      c.releaseAncilla p = next.done () ∧ c.Released next p := by
  have covered : coverCount c.ancregs p ≠ 0 := covers_iff.mp ancillary
  rcases exists_takeOut covered with ⟨name, offset, ancregs, located, removed⟩
  have once := compact.tiles p
  rw [if_pos (compact.layout.lt held)] at once
  have shrunk := totalSize_remove_of_once compact.fit_ancregs
    (fun i => (compact.coverCount_le i).2) removed
  have counted := compact.totalSize_ancregs
  have positive : c.numAncillae ≠ 0 := by omega
  refine ⟨ancregs, ?_, ?_, fun i => ?_, fun i => ?_, compact.totalSize_qregs, ?_,
    compact.fit_qregs, compact.fit_ancregs.remove lasting_fits removed⟩
  · unfold Circuit.releaseAncilla
    simp only [located, removed, dropAncilla, positive, if_false]
  · change c.numQubits + (c.numAncillae - 1) + 1 = c.numQubits + c.numAncillae
    omega
  · change coverCount c.qregs i = _
    split
    · next same =>
        subst same
        omega
    · rfl
  · exact coverCount_remove_of_eq_one removed (by omega) i
  · change totalSize ancregs = c.numAncillae - 1
    omega

theorem Compact.releaseQubit (compact : c.Compact) {p l : Nat}
    (held : c.initialLayout.find? p = some l) (unmarked : c.physicalIsAncillary p = false) :
    ∃ qregs,
      let next : Circuit S := { c with qregs, numQubits := c.numQubits - 1 }
      c.releaseQubit l p = next.done () ∧ c.Released next p := by
  have uncovered : coverCount c.ancregs p = 0 := covers_eq_false_iff.mp unmarked
  have once := compact.tiles p
  rw [if_pos (compact.layout.lt held)] at once
  have covered : coverCount c.qregs p ≠ 0 := by omega
  rcases exists_takeOut covered with ⟨name, offset, qregs, located, removed⟩
  have shrunk := totalSize_remove_of_once compact.fit_qregs
    (fun i => (compact.coverCount_le i).1) removed
  have counted := compact.totalSize_qregs
  have positive : c.numQubits ≠ 0 := by omega
  have logical : c.logicalIsAncillary l = false := by rw [compact.marks held, unmarked]
  refine ⟨qregs, ?_, ?_, fun i => ?_, fun i => ?_, ?_, compact.totalSize_ancregs,
    compact.fit_qregs.remove lasting_fits removed, compact.fit_ancregs⟩
  · unfold Circuit.releaseQubit
    simp only [located, removed, logical, dropQubit, positive, if_false, Bool.false_eq_true]
  · change c.numQubits - 1 + c.numAncillae + 1 = c.numQubits + c.numAncillae
    omega
  · exact coverCount_remove_of_eq_one removed (by omega) i
  · change coverCount c.ancregs i = _
    split
    · next same =>
        subst same
        exact uncovered
    · rfl
  · change totalSize qregs = c.numQubits - 1
    omega

/-- A held logical qubit can be removed from a compact circuit. -/
theorem Compact.removeQubit (compact : c.Compact) {p l : Nat}
    (held : c.initialLayout.find? p = some l) :
    ∃ qregs ancregs numQubits numAncillae,
      let next : Circuit S := { c with
        qregs, ancregs, numQubits, numAncillae
        initialLayout := c.initialLayout.erase p
        outputPermutation := c.outputPermutation.erase p
        ancillary := c.ancillary.eraseIdx l
        garbage := c.garbage.eraseIdx l }
      c.removeQubit l = next.done (p, c.outputPermutation.find? p) ∧ c.Released next p := by
  have found := physicalOf?_eq_some compact.layout held
  cases ancillary : c.physicalIsAncillary p with
  | true =>
      rcases compact.releaseAncilla held ancillary with ⟨ancregs, released, facts⟩
      refine ⟨c.qregs, ancregs, c.numQubits, c.numAncillae - 1, ?_, facts.total, facts.qregs,
        facts.ancregs, facts.totalSize_qregs, facts.totalSize_ancregs, facts.fit_qregs,
        facts.fit_ancregs⟩
      unfold Circuit.removeQubit
      simp only [found, ancillary, if_true, released]
      rfl
  | false =>
      rcases compact.releaseQubit held ancillary with ⟨qregs, released, facts⟩
      refine ⟨qregs, c.ancregs, c.numQubits - 1, c.numAncillae, ?_, facts.total, facts.qregs,
        facts.ancregs, facts.totalSize_qregs, facts.totalSize_ancregs, facts.fit_qregs,
        facts.fit_ancregs⟩
      unfold Circuit.removeQubit
      simp only [found, ancillary, Bool.false_eq_true, if_false, released]
      rfl

/-! ## Closing up -/

/-- A list without the item at a position is the list with the position opened. -/
theorem getElem?_eraseIdx_openGap {α : Type} (l : List α) (removed i : Nat) :
    (l.eraseIdx removed)[i]? = l[openGap removed i]? := by
  rw [List.getElem?_eraseIdx, openGap]
  split <;> rfl

/-- The circuit after a removal that is closed up: each index is renumbered everywhere. -/
structure Closed (c next : Circuit S) (p l : Nat) : Prop where
  /-- There is one qubit less. -/
  total : next.numTotalQubits + 1 = c.numTotalQubits
  /-- The operations refer to the new physical indices. -/
  ops : next.ops = Operation.remapAll (closeGap p) c.ops
  /-- The remaining physical qubits hold the same logical ones, under the new indices of both. -/
  layout : ∀ q, next.initialLayout.find? q =
    (c.initialLayout.find? (openGap p q)).map (closeGap l)
  /-- They have the same outputs. -/
  output : ∀ q, next.outputPermutation.find? q =
    (c.outputPermutation.find? (openGap p q)).map (closeGap l)
  /-- The remaining logical qubits have the same marks. -/
  ancillary : ∀ i, next.ancillary[i]? = c.ancillary[openGap l i]?
  /-- They are garbage if they were. -/
  garbage : ∀ i, next.garbage[i]? = c.garbage[openGap l i]?
  /-- The quantum registers cover the same qubits. -/
  qregs : ∀ i, coverCount next.qregs i = coverCount c.qregs (openGap p i)
  /-- The ancillary registers cover the same qubits. -/
  ancregs : ∀ i, coverCount next.ancregs i = coverCount c.ancregs (openGap p i)
  /-- The ends of the quantum registers do not wrap around. -/
  fit_qregs : next.qregs.Fit
  /-- The ends of the ancillary registers do not wrap around. -/
  fit_ancregs : next.ancregs.Fit
  /-- Everything else stays as it is. -/
  rest : next = { c with
    ops := next.ops
    numQubits := next.numQubits
    numAncillae := next.numAncillae
    qregs := next.qregs
    ancregs := next.ancregs
    initialLayout := next.initialLayout
    outputPermutation := next.outputPermutation
    ancillary := next.ancillary
    garbage := next.garbage }

/-- Closing up behind a removal leaves a compact circuit, if the sizes of its registers are
counted. -/
theorem Closed.compact {next : Circuit S} {p l : Nat} (closed : c.Closed next p l)
    (compact : c.Compact) (held : c.initialLayout.find? p = some l)
    (sizeQ : totalSize next.qregs = next.numQubits)
    (sizeA : totalSize next.ancregs = next.numAncillae) : next.Compact := by
  have total := closed.total
  have physicalLt := compact.layout.lt held
  have logicalLt := compact.layout.value_lt held
  have lengths : ∀ {marks marks' : List Bool}, (∀ i, marks'[i]? = marks[openGap l i]?) →
      marks.length = c.numTotalQubits → marks'.length = next.numTotalQubits := by
    intro marks marks' same length
    have erased : marks' = marks.eraseIdx l :=
      List.ext_getElem? fun i => (same i).trans (getElem?_eraseIdx_openGap marks l i).symm
    rw [erased, List.length_eraseIdx, if_pos (by omega)]
    omega
  refine ⟨?_, fun {q} output => ?_, lengths closed.ancillary compact.length_ancillary,
    lengths closed.garbage compact.length_garbage, fun i => ?_, sizeQ, sizeA, closed.fit_qregs,
    closed.fit_ancregs, fun {q m} heldQ => ?_⟩
  · exact Layout.Bijective.closed (total ▸ compact.layout) held closed.layout
  · rw [contains, closed.output, Option.isSome_map] at output
    have below := compact.output_lt output
    rw [openGap] at below
    split at below <;> omega
  · rw [closed.qregs, closed.ancregs, compact.tiles, openGap]
    split_ifs <;> omega
  · rw [closed.layout] at heldQ
    rcases Option.map_eq_some_iff.mp heldQ with ⟨m, stored, rfl⟩
    have other : m ≠ l := by
      rintro rfl
      exact openGap_ne p q (compact.layout.injective stored held)
    have agree := compact.marks stored
    rw [logicalIsAncillary, physicalIsAncillary, List.getD_eq_getElem?_getD] at agree
    rw [logicalIsAncillary, physicalIsAncillary, List.getD_eq_getElem?_getD, closed.ancillary,
      openGap_closeGap other, agree, Bool.eq_iff_iff, covers_iff, covers_iff, closed.ancregs]

/-- A circuit that gave up a qubit is closed up behind it. -/
theorem Released.closed {p l : Nat} {qregs ancregs : Registers} {numQubits numAncillae : Nat}
    {removed : Circuit S}
    (gone : removed = { c with
      qregs, ancregs, numQubits, numAncillae
      initialLayout := c.initialLayout.erase p
      outputPermutation := c.outputPermutation.erase p
      ancillary := c.ancillary.eraseIdx l
      garbage := c.garbage.eraseIdx l })
    (released : c.Released removed p) : c.Closed (removed.closeUp l p) p l := by
  have cover : ∀ {regs regs' : Registers}, regs'.Fit →
      (∀ i, coverCount regs' i = if i = p then 0 else coverCount regs i) →
      ∀ i, coverCount (closeRegisters p regs') i = coverCount regs (openGap p i) := by
    intro regs regs' fit without i
    have uncovered : coverCount regs' p = 0 := by rw [without p, if_pos rfl]
    rw [coverCount_closeRegisters fit uncovered, without, if_neg (openGap_ne p i)]
  subst gone
  exact ⟨released.total, rfl, find?_closeLayout_erase _ l p, find?_closeLayout_erase _ l p,
    getElem?_eraseIdx_openGap _ l, getElem?_eraseIdx_openGap _ l,
    cover released.fit_qregs released.qregs, cover released.fit_ancregs released.ancregs,
    released.fit_qregs.closeRegisters p, released.fit_ancregs.closeRegisters p, rfl⟩

/-- Removing a held qubit and closing up keeps a circuit compact. -/
theorem Compact.removeAndClose (compact : c.Compact) {p l : Nat}
    (held : c.initialLayout.find? p = some l) :
    ∃ removed : Circuit S, c.removeQubit l = removed.done (p, c.outputPermutation.find? p) ∧
      c.Closed (removed.closeUp l p) p l ∧ (removed.closeUp l p).Compact := by
  rcases compact.removeQubit held with ⟨qregs, ancregs, numQubits, numAncillae, removed, released⟩
  have closed := released.closed rfl
  refine ⟨_, removed, closed, closed.compact compact held ?_ ?_⟩
  · exact (totalSize_closeRegisters qregs p).trans released.totalSize_qregs
  · exact (totalSize_closeRegisters ancregs p).trans released.totalSize_ancregs

end Circuit

end QuantumCircuit
