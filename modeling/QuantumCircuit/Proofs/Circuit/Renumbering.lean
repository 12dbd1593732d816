import Mathlib.Data.Nat.Count
import QuantumCircuit.Proofs.Circuit.Removal
import QuantumCircuit.Proofs.Operation.Renaming

/-!
# Renumbered circuits

If only some of the qubits are kept, the new index of a kept one is its rank, the number of kept
indices below it.  Closing up one removed index after the other moves every index to its rank, in
the same way for physical and for logical indices.
-/

namespace QuantumCircuit

open Registers

namespace Circuit

/-! ## Ranks -/

section Ranks

variable {keep keep' : Nat → Prop} [DecidablePred keep] [DecidablePred keep']

/-- A rank lies above that of a kept index if the index itself does. -/
theorem closeGap_count {k : Nat} (kept : keep k) (n : Nat) :
    closeGap (Nat.count keep k) (Nat.count keep n) =
      if k < n then Nat.count keep n - 1 else Nat.count keep n := by
  rw [closeGap]
  by_cases below : k < n
  · rw [if_pos below, if_pos (Nat.count_strict_mono kept below)]
  · rw [if_neg below, if_neg fun less => below (Nat.lt_of_count_lt_count less)]

/-- Ranks change by closing up if one index is not kept any more. -/
theorem count_and_ne {k : Nat} (kept : keep k) (n : Nat) :
    Nat.count (fun i => keep i ∧ i ≠ k) n = closeGap (Nat.count keep k) (Nat.count keep n) := by
  rw [closeGap_count kept]
  induction n with
  | zero => rfl
  | succ n ih =>
      rw [Nat.count_succ, Nat.count_succ, ih]
      rcases Nat.lt_trichotomy k n with below | rfl | above
      · have positive := Nat.count_strict_mono kept below
        simp only [below, Nat.lt_succ_of_lt below, (Nat.ne_of_lt below).symm, if_true, ne_eq,
          not_false_eq_true, and_true]
        omega
      · simp [kept]
      · have later : ¬ k < n := by omega
        have notNext : ¬ k < n + 1 := by omega
        simp only [later, notNext, (Nat.ne_of_lt above), if_false, ne_eq, not_false_eq_true,
          and_true]

/-- Every number below the number of kept indices is the rank of one of them. -/
theorem exists_count_eq {r n : Nat} (below : r < Nat.count keep n) :
    ∃ k < n, keep k ∧ Nat.count keep k = r := by
  induction n with
  | zero => exact absurd below (Nat.not_lt_zero r)
  | succ n ih =>
      by_cases earlier : r < Nat.count keep n
      · rcases ih earlier with ⟨k, less, kept, rank⟩
        exact ⟨k, Nat.lt_succ_of_lt less, kept, rank⟩
      · rw [Nat.count_succ] at below
        split at below
        · next kept => exact ⟨n, Nat.lt_succ_self n, kept, by omega⟩
        · omega

theorem count_congr_below {n : Nat} (same : ∀ k < n, keep k ↔ keep' k) :
    Nat.count keep n = Nat.count keep' n :=
  Nat.le_antisymm (Nat.count_mono_left fun k below => (same k below).mp)
    (Nat.count_mono_left fun k below => (same k below).mpr)

theorem count_eq_sum (n : Nat) :
    Nat.count keep n = ∑ p ∈ Finset.range n, if keep p then 1 else 0 := by
  rw [Nat.count_eq_card_filter_range, Finset.card_filter]

/-- Sums over ranks are sums over kept indices. -/
theorem sum_range_count (f : Nat → Nat) (n : Nat) :
    ∑ i ∈ Finset.range (Nat.count keep n), f i =
      ∑ p ∈ Finset.range n, if keep p then f (Nat.count keep p) else 0 := by
  induction n with
  | zero => rfl
  | succ n ih =>
      rw [Finset.sum_range_succ, ← ih, Nat.count_succ]
      by_cases kept : keep n
      · rw [if_pos kept, if_pos kept, Finset.sum_range_succ]
      · rw [if_neg kept, if_neg kept, Nat.add_zero, Nat.add_zero]

/-- Registers that cover the ranks of kept indices have as many indices as they covered of these. -/
theorem totalSize_eq_count {regs ranked : Registers} {n : Nat}
    (same : ∀ {p}, keep p → coverCount ranked (Nat.count keep p) = coverCount regs p)
    (fit : ranked.Fit) (once : ∀ i, coverCount ranked i ≤ 1)
    (beyond : ∀ i, Nat.count keep n ≤ i → coverCount ranked i = 0) :
    totalSize ranked = Nat.count (fun p => keep p ∧ covers regs p = true) n := by
  rw [totalSize_eq_sum fit once beyond, sum_range_count, count_eq_sum]
  apply Finset.sum_congr rfl
  intro p _
  by_cases kept : keep p
  · have atMost := once (Nat.count keep p)
    rw [same kept] at atMost
    rw [if_pos kept, same kept]
    by_cases covered : coverCount regs p = 0
    · rw [if_neg fun both => covers_iff.mp both.2 covered, covered]
    · rw [if_pos ⟨kept, covers_iff.mpr covered⟩]
      omega
  · rw [if_neg kept, if_neg fun both => kept both.1]

end Ranks

/-! ## Circuits -/

variable {S : Type}

/-- The circuit in which only some physical and logical qubits are kept, each under its rank. -/
structure Renumbered (c next : Circuit S) (keep keepLogical : Nat → Prop) [DecidablePred keep]
    [DecidablePred keepLogical] : Prop where
  /-- The kept physical qubits are counted. -/
  total : next.numTotalQubits = Nat.count keep c.numTotalQubits
  /-- There are as many logical ones. -/
  totalLogical : next.numTotalQubits = Nat.count keepLogical c.numTotalQubits
  /-- Every qubit in the operations is replaced by its rank. -/
  ops : next.ops = Operation.remapAll (Nat.count keep) c.ops
  /-- A kept physical qubit holds the same logical qubit, under its rank. -/
  layout : ∀ {p}, keep p → next.initialLayout.find? (Nat.count keep p) =
    (c.initialLayout.find? p).map (Nat.count keepLogical)
  /-- A kept physical qubit has the same output, under its rank. -/
  output : ∀ {p}, keep p → next.outputPermutation.find? (Nat.count keep p) =
    (c.outputPermutation.find? p).map (Nat.count keepLogical)
  /-- A kept logical qubit is marked ancillary if it was. -/
  ancillary : ∀ {l}, keepLogical l → next.ancillary[Nat.count keepLogical l]? = c.ancillary[l]?
  /-- A kept logical qubit is marked garbage if it was. -/
  garbage : ∀ {l}, keepLogical l → next.garbage[Nat.count keepLogical l]? = c.garbage[l]?
  /-- The quantum registers cover a kept qubit if they did. -/
  qregs : ∀ {p}, keep p →
    coverCount next.qregs (Nat.count keep p) = coverCount c.qregs p
  /-- The ancillary registers cover a kept qubit if they did. -/
  ancregs : ∀ {p}, keep p →
    coverCount next.ancregs (Nat.count keep p) = coverCount c.ancregs p
  /-- Everything else stays as it is. -/
  rest : next = { c with
    ops := next.ops
    numQubits := next.numQubits
    numAncillae := next.numAncillae
    qregs := next.qregs
    ancregs := next.ancregs
    initialLayout := next.initialLayout
    outputPermutation := next.outputPermutation
    ancillary := next.ancillary
    garbage := next.garbage }

namespace Renumbered

variable {c stage next : Circuit S} {keep keepLogical keep' keepLogical' : Nat → Prop}
  [DecidablePred keep] [DecidablePred keepLogical] [DecidablePred keep']
  [DecidablePred keepLogical']

/-- Where all qubits are kept nothing changes. -/
theorem refl (all : ∀ p, keep p) (allLogical : ∀ l, keepLogical l) :
    Renumbered c c keep keepLogical := by
  have rank : Nat.count keep = id := funext fun n => Nat.count_of_forall fun p _ => all p
  have rankLogical : Nat.count keepLogical = id :=
    funext fun n => Nat.count_of_forall fun l _ => allLogical l
  refine ⟨?_, ?_, ?_, fun _ => ?_, fun _ => ?_, fun _ => ?_, fun _ => ?_, fun _ => ?_, fun _ => ?_,
    rfl⟩
  · rw [rank, id]
  · rw [rankLogical, id]
  · rw [rank, Operation.remapAll_id]
  · rw [rank, rankLogical, Option.map_id, id, id]
  · rw [rank, rankLogical, Option.map_id, id, id]
  · rw [rankLogical, id]
  · rw [rankLogical, id]
  · rw [rank, id]
  · rw [rank, id]

/-- Closing up behind one more removed qubit. -/
theorem close {p l : Nat} (renumbered : Renumbered c stage keep keepLogical)
    (kept : keep p) (keptLogical : keepLogical l) (below : p < c.numTotalQubits)
    (belowLogical : l < c.numTotalQubits)
    (closed : stage.Closed next (Nat.count keep p) (Nat.count keepLogical l)) :
    Renumbered c next (fun q => keep q ∧ q ≠ p) (fun m => keepLogical m ∧ m ≠ l) := by
  have rank : (Nat.count fun q => keep q ∧ q ≠ p) =
      closeGap (Nat.count keep p) ∘ Nat.count keep :=
    funext fun n => count_and_ne kept n
  have rankLogical : (Nat.count fun m => keepLogical m ∧ m ≠ l) =
      closeGap (Nat.count keepLogical l) ∘ Nat.count keepLogical :=
    funext fun n => count_and_ne keptLogical n
  have opened : ∀ {q}, keep q ∧ q ≠ p → openGap (Nat.count keep p)
      (closeGap (Nat.count keep p) (Nat.count keep q)) = Nat.count keep q := by
    rintro q ⟨keptQ, other⟩
    exact openGap_closeGap fun same => other (Nat.count_injective keptQ kept same)
  have openedLogical : ∀ {m}, keepLogical m ∧ m ≠ l → openGap (Nat.count keepLogical l)
      (closeGap (Nat.count keepLogical l) (Nat.count keepLogical m)) =
      Nat.count keepLogical m := by
    rintro m ⟨keptM, other⟩
    exact openGap_closeGap fun same => other (Nat.count_injective keptM keptLogical same)
  have total := closed.total
  have less := Nat.count_strict_mono kept below
  have lessLogical := Nat.count_strict_mono keptLogical belowLogical
  refine ⟨?_, ?_, ?_, fun {q} keepQ => ?_, fun {q} keepQ => ?_, fun {m} keepM => ?_,
    fun {m} keepM => ?_, fun {q} keepQ => ?_, fun {q} keepQ => ?_, ?_⟩
  · rw [rank, Function.comp_apply, ← renumbered.total, closeGap, if_pos]
    · omega
    · rw [renumbered.total]
      exact less
  · rw [rankLogical, Function.comp_apply, ← renumbered.totalLogical, closeGap, if_pos]
    · omega
    · rw [renumbered.totalLogical]
      exact lessLogical
  · rw [closed.ops, renumbered.ops, Operation.remapAll_remapAll, rank]
  · rw [rank, rankLogical, Function.comp_apply, closed.layout, opened keepQ,
      renumbered.layout keepQ.1, Option.map_map]
  · rw [rank, rankLogical, Function.comp_apply, closed.output, opened keepQ,
      renumbered.output keepQ.1, Option.map_map]
  · rw [rankLogical, Function.comp_apply, closed.ancillary, openedLogical keepM,
      renumbered.ancillary keepM.1]
  · rw [rankLogical, Function.comp_apply, closed.garbage, openedLogical keepM,
      renumbered.garbage keepM.1]
  · rw [rank, Function.comp_apply, closed.qregs, opened keepQ, renumbered.qregs keepQ.1]
  · rw [rank, Function.comp_apply, closed.ancregs, opened keepQ, renumbered.ancregs keepQ.1]
  · rw [closed.rest, renumbered.rest]

/-- As long as all touched qubits are kept, operations touch the ranks of what they touched. -/
theorem anyActsOn_iff (renumbered : Renumbered c next keep keepLogical)
    (touched : ∀ {q}, Operation.anyActsOn q c.ops = true → keep q) {p : Nat} (kept : keep p) :
    Operation.anyActsOn (Nat.count keep p) next.ops = true ↔
      Operation.anyActsOn p c.ops = true := by
  rw [renumbered.ops, Operation.anyActsOn_remapAll]
  constructor
  · rintro ⟨q, acts, same⟩
    rw [← Nat.count_injective (touched acts) kept same]
    exact acts
  · intro acts
    exact ⟨p, acts, rfl⟩

/-- Kept qubits may be given in another way. -/
theorem congr (renumbered : Renumbered c next keep keepLogical) (same : ∀ p, keep p ↔ keep' p)
    (sameLogical : ∀ l, keepLogical l ↔ keepLogical' l) :
    Renumbered c next keep' keepLogical' := by
  obtain rfl : keep = keep' := funext fun p => propext (same p)
  obtain rfl : keepLogical = keepLogical' := funext fun l => propext (sameLogical l)
  convert renumbered

/-- Indices that do not belong to a qubit need not be kept. -/
theorem restrict (renumbered : Renumbered c next keep keepLogical)
    (same : ∀ p < c.numTotalQubits, keep p ↔ keep' p)
    (below : ∀ {p}, keep' p → p < c.numTotalQubits)
    (sameLogical : ∀ l < c.numTotalQubits, keepLogical l ↔ keepLogical' l)
    (belowLogical : ∀ {l}, keepLogical' l → l < c.numTotalQubits)
    (occurring : ∀ q ∈ Operation.occurrencesAll c.ops, keep' q)
    (values : ∀ {p l}, c.initialLayout.find? p = some l → l < c.numTotalQubits)
    (outputs : ∀ {p l}, c.outputPermutation.find? p = some l → l < c.numTotalQubits) :
    Renumbered c next keep' keepLogical' := by
  have rank : ∀ {n}, n ≤ c.numTotalQubits → Nat.count keep n = Nat.count keep' n :=
    fun le => count_congr_below fun k less => same k (Nat.lt_of_lt_of_le less le)
  have rankLogical : ∀ {n}, n ≤ c.numTotalQubits →
      Nat.count keepLogical n = Nat.count keepLogical' n :=
    fun le => count_congr_below fun k less => sameLogical k (Nat.lt_of_lt_of_le less le)
  have old : ∀ {q}, keep' q → keep q := fun kept => (same _ (below kept)).mpr kept
  have oldLogical : ∀ {m}, keepLogical' m → keepLogical m :=
    fun kept => (sameLogical _ (belowLogical kept)).mpr kept
  refine ⟨?_, ?_, ?_, fun {q} kept => ?_, fun {q} kept => ?_, fun {m} kept => ?_,
    fun {m} kept => ?_, fun {q} kept => ?_, fun {q} kept => ?_, renumbered.rest⟩
  · rw [renumbered.total, rank le_rfl]
  · rw [renumbered.totalLogical, rankLogical le_rfl]
  · rw [renumbered.ops]
    exact Operation.remapAll_congr fun q mem => rank (below (occurring q mem)).le
  · rw [← rank (below kept).le, renumbered.layout (old kept)]
    exact Option.map_congr fun l held => rankLogical (values held).le
  · rw [← rank (below kept).le, renumbered.output (old kept)]
    exact Option.map_congr fun l held => rankLogical (outputs held).le
  · rw [← rankLogical (belowLogical kept).le, renumbered.ancillary (oldLogical kept)]
  · rw [← rankLogical (belowLogical kept).le, renumbered.garbage (oldLogical kept)]
  · rw [← rank (below kept).le, renumbered.qregs (old kept)]
  · rw [← rank (below kept).le, renumbered.ancregs (old kept)]

/-- The kept qubits that are not ancillary are counted. -/
theorem numQubits_eq (renumbered : Renumbered c next keep keepLogical)
    (nextCompact : next.Compact) : next.numQubits =
      Nat.count (fun p => keep p ∧ covers c.qregs p = true) c.numTotalQubits := by
  rw [← nextCompact.totalSize_qregs]
  refine totalSize_eq_count renumbered.qregs nextCompact.fit_qregs
    (fun i => (nextCompact.coverCount_le i).1) ?_
  intro i above
  rw [← renumbered.total] at above
  exact (nextCompact.uncovered above).1

/-- The kept ancillary qubits are counted. -/
theorem numAncillae_eq (renumbered : Renumbered c next keep keepLogical)
    (nextCompact : next.Compact) : next.numAncillae =
      Nat.count (fun p => keep p ∧ covers c.ancregs p = true) c.numTotalQubits := by
  rw [← nextCompact.totalSize_ancregs]
  refine totalSize_eq_count renumbered.ancregs nextCompact.fit_ancregs
    (fun i => (nextCompact.coverCount_le i).2) ?_
  intro i above
  rw [← renumbered.total] at above
  exact (nextCompact.uncovered above).2

end Renumbered

end Circuit

end QuantumCircuit
