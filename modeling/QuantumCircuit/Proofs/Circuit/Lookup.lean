import QuantumCircuit.Proofs.Circuit.Labels

/-!
# Looking up qubits by index

The register of an index is found in two ways.  A search goes through the registers in name order
and takes the first one that covers the index, and of a circuit it tries the quantum registers
first.  A table of labels is filled in the order of the starts, and of a circuit with the ancillary
registers last, and what is filled in later counts.  Where registers overlap the two differ; where
they do not, an index has one place, whatever the names are, and both find it.  A register that
reaches the last index there is has an end that wraps around, and neither finds its indices, although
its size is counted.
-/

namespace QuantumCircuit.Circuit

open Registers SortedMap

variable {S : Type} {c : Circuit S}

/-- Whether no two registers of a circuit, quantum or ancillary, share a qubit. -/
structure RegistersApart (c : Circuit S) : Prop where
  /-- The quantum registers. -/
  qregs : c.qregs.Apart
  /-- The ancillary registers. -/
  ancregs : c.ancregs.Apart
  /-- A qubit in a quantum register is not in an ancillary one. -/
  across : ∀ p, covers c.qregs p = true → covers c.ancregs p = false

namespace RegistersApart

/-- Whether registers are apart can be checked on their ranges. -/
theorem iff_ranges : c.RegistersApart ↔ c.qregs.Apart ∧ c.ancregs.Apart ∧
    ∀ r ∈ c.qregs.values, ∀ s ∈ c.ancregs.values,
      r.stop ≤ r.start ∨ s.stop ≤ s.start ∨ r.stop ≤ s.start ∨ s.stop ≤ r.start := by
  simp only [← disjoint_iff]
  constructor
  · rintro ⟨qregs, ancregs, across⟩
    refine ⟨qregs, ancregs, fun r stored s stored' p inside => ?_⟩
    have free := across p (List.any_eq_true.mpr ⟨r, stored, inside⟩)
    exact eq_false_of_ne_true (List.any_eq_false.mp free s stored')
  · rintro ⟨qregs, ancregs, across⟩
    refine ⟨qregs, ancregs, fun p covered => List.any_eq_false.mpr fun s stored' => ?_⟩
    obtain ⟨r, stored, inside⟩ := List.any_eq_true.mp covered
    exact ne_true_of_eq_false (across r stored s stored' p inside)

instance (c : Circuit S) : Decidable c.RegistersApart :=
  decidable_of_iff _ iff_ranges.symm

/-- What the quantum registers have an entry for, the ancillary registers have none for. -/
theorem names_ancregs (apart : c.RegistersApart) {p : Nat}
    (stored : (names c.qregs).contains p = true) : (names c.ancregs).find? p = none := by
  obtain ⟨entry, named⟩ := contains_iff_find?.mp stored
  obtain ⟨offset, places, -⟩ := places_of_names named
  exact names_eq_none (apart.across p places.covers)

/-- It makes no difference which of the two maps is asked first. -/
theorem find?_qubitNames (apart : c.RegistersApart) (p : Nat) : c.qubitNames.find? p =
    ((locate? c.qregs p).or (locate? c.ancregs p)).map tableEntry := by
  rw [Circuit.find?_qubitNames, Option.map_or, ← find?_names apart.qregs,
    ← find?_names apart.ancregs]
  cases quantum : (names c.qregs).find? p with
  | none => rw [Option.or_none, Option.none_or]
  | some entry =>
      rw [apart.names_ancregs (contains_iff_find?.mpr ⟨entry, quantum⟩), Option.none_or,
        Option.some_or]

theorem size_qubitNames (apart : c.RegistersApart) (fitQ : c.qregs.Fit) (fitA : c.ancregs.Fit) :
    c.qubitNames.size = totalSize c.qregs + totalSize c.ancregs := by
  rw [qubitNames, size_insertAll_entries fun p => apart.names_ancregs, size_names fitQ apart.qregs,
    size_names fitA apart.ancregs]

end RegistersApart

end QuantumCircuit.Circuit
