import QuantumCircuit.Circuit.Statistics
import QuantumCircuit.Proofs.Operation.Touched
import QuantumCircuit.Proofs.Reorder.Chains

/-!
# Dynamic circuits

Whether a circuit is dynamic is found by a scan that keeps the qubits measured so far and stops at
the first leaf that settles the matter.  What it finds is a property of the leaves as a whole: there
is a condition, or a reset, or a measurement of a qubit and, later on, a gate on the same qubit.  A
measurement and a gate on one qubit are a chain, and the canonical order keeps chains.
-/

namespace QuantumCircuit

variable {S : Type}

namespace Operation

variable {past more : List (Operation S)} {measured : List Nat} {leaf : Operation S} {q : Nat}

/-! ## Kinds of leaves -/

/-- Whether an operation stands under a condition. -/
def IsConditioned : Operation S → Prop
  | .conditioned _ _ => True
  | _ => False

/-- Whether an operation is a reset. -/
def IsReset : Operation S → Prop
  | .nonUnitary e => e.kind = .reset
  | _ => False

/-- Whether an operation is a measurement of a qubit.  What is neither a gate nor a reset nor made of
other operations is a measurement of its targets. -/
def Measures (q : Nat) : Operation S → Prop
  | .nonUnitary e => e.kind ≠ .reset ∧ q ∈ e.targets
  | _ => False

/-- Whether an operation is a gate, and no barrier, with a qubit as control or target. -/
def GatesOn (q : Nat) : Operation S → Prop
  | .standard g => g.kind ≠ .barrier ∧ q ∈ g.operands
  | .symbolic g => g.kind ≠ .barrier ∧ q ∈ g.operands
  | _ => False

theorem Measures.mem_usedQubits {op : Operation S} (measures : op.Measures q) :
    q ∈ op.usedQubits.keys := by
  cases op with
  | nonUnitary e => exact mem_ownQubits.mpr (ownsQubit_iff.mpr (.inr measures.2))
  | _ => exact measures.elim

theorem gatesOn_standard_iff {g : Gate S} : (standard g).GatesOn q ↔
    g.kind ≠ .barrier ∧ q ∈ (standard g).usedQubits.keys := by
  have used : q ∈ (standard g).usedQubits.keys ↔ q ∈ g.operands :=
    mem_ownQubits.trans (ownsQubit_iff.trans List.mem_append.symm)
  exact and_congr_right fun _ => used.symm

theorem gatesOn_symbolic_iff {g : Gate (Parameter S)} : (symbolic g).GatesOn q ↔
    g.kind ≠ .barrier ∧ q ∈ (symbolic g).usedQubits.keys := by
  have used : q ∈ (symbolic g).usedQubits.keys ↔ q ∈ g.operands :=
    mem_ownQubits.trans (ownsQubit_iff.trans List.mem_append.symm)
  exact and_congr_right fun _ => used.symm

theorem GatesOn.mem_usedQubits {op : Operation S} (gates : op.GatesOn q) :
    q ∈ op.usedQubits.keys := by
  cases op with
  | standard g => exact (gatesOn_standard_iff.mp gates).2
  | symbolic g => exact (gatesOn_symbolic_iff.mp gates).2
  | _ => exact gates.elim

/-! ## Lists of leaves -/

/-- Whether leaves, in program order, make a circuit dynamic. -/
def Dynamic (leaves : List (Operation S)) : Prop :=
  (∃ leaf ∈ leaves, leaf.IsConditioned) ∨ (∃ leaf ∈ leaves, leaf.IsReset) ∨
    ∃ q measurement gate, [measurement, gate].Sublist leaves ∧ measurement.Measures q ∧
      gate.GatesOn q

theorem Dynamic.append (dynamic : Dynamic past) (more : List (Operation S)) :
    Dynamic (past ++ more) := by
  have prefixed : past.Sublist (past ++ more) := List.sublist_append_left past more
  rcases dynamic with ⟨leaf, member, conditioned⟩ | ⟨leaf, member, reset⟩ |
    ⟨q, measurement, gate, picked, onQubit⟩
  · exact .inl ⟨leaf, prefixed.subset member, conditioned⟩
  · exact .inr (.inl ⟨leaf, prefixed.subset member, reset⟩)
  · exact .inr (.inr ⟨q, measurement, gate, picked.trans prefixed, onQubit⟩)

theorem pair_sublist_concat_iff {a b : Operation S} :
    [a, b].Sublist (past ++ [leaf]) ↔ [a, b].Sublist past ∨ a ∈ past ∧ b = leaf := by
  constructor
  · intro picked
    obtain ⟨front, back, split, pickedFront, pickedBack⟩ := List.sublist_append_iff.mp picked
    rcases List.sublist_singleton.mp pickedBack with rfl | rfl
    · rw [List.append_nil] at split
      exact .inl (split ▸ pickedFront)
    · have split : [a] ++ [b] = front ++ [leaf] := split
      obtain ⟨rfl, equal⟩ := List.append_inj' split rfl
      exact .inr ⟨List.singleton_sublist.mp pickedFront, List.singleton_inj.mp equal⟩
  · rintro (picked | ⟨member, rfl⟩)
    · exact picked.trans (List.sublist_append_left past [leaf])
    · exact (List.singleton_sublist.mpr member).append (List.Sublist.refl [b])

/-- One more leaf makes a difference if it is under a condition, a reset, or a gate on a qubit that
has been measured. -/
theorem dynamic_concat_iff : Dynamic (past ++ [leaf]) ↔
    Dynamic past ∨ leaf.IsConditioned ∨ leaf.IsReset ∨
      ∃ q, (∃ measurement ∈ past, measurement.Measures q) ∧ leaf.GatesOn q := by
  constructor
  · rintro (⟨op, member, conditioned⟩ | ⟨op, member, reset⟩ |
      ⟨q, measurement, gate, picked, measures, gates⟩)
    · rcases List.mem_append.mp member with before | last
      · exact .inl (.inl ⟨op, before, conditioned⟩)
      · obtain rfl := List.mem_singleton.mp last
        exact .inr (.inl conditioned)
    · rcases List.mem_append.mp member with before | last
      · exact .inl (.inr (.inl ⟨op, before, reset⟩))
      · obtain rfl := List.mem_singleton.mp last
        exact .inr (.inr (.inl reset))
    · rcases pair_sublist_concat_iff.mp picked with before | ⟨member, rfl⟩
      · exact .inl (.inr (.inr ⟨q, measurement, gate, before, measures, gates⟩))
      · exact .inr (.inr (.inr ⟨q, ⟨measurement, member, measures⟩, gates⟩))
  · have last : leaf ∈ past ++ [leaf] := List.mem_append_right past List.mem_cons_self
    rintro (before | conditioned | reset | ⟨q, ⟨measurement, member, measures⟩, gates⟩)
    · exact before.append [leaf]
    · exact .inl ⟨leaf, last, conditioned⟩
    · exact .inr (.inl ⟨leaf, last, reset⟩)
    · exact .inr (.inr ⟨q, measurement, leaf, pair_sublist_concat_iff.mpr (.inr ⟨member, rfl⟩),
        measures, gates⟩)

/-! ## The scan -/

/-- What a scan knows after leaves that do not make a circuit dynamic. -/
structure Scanned (past : List (Operation S)) (measured : List Nat) : Prop where
  /-- Nothing has settled the matter. -/
  static : ¬ Dynamic past
  /-- The qubits that have been measured are kept. -/
  recorded : ∀ q, q ∈ measured ↔ ∃ measurement ∈ past, measurement.Measures q

/-- Whether a leaf settles the matter where some qubits have been measured. -/
def Settles (measured : List Nat) (leaf : Operation S) : Prop :=
  leaf.IsConditioned ∨ leaf.IsReset ∨ ∃ q ∈ measured, leaf.GatesOn q

theorem Scanned.dynamic_iff (scanned : Scanned past measured) :
    Dynamic (past ++ [leaf]) ↔ leaf.Settles measured := by
  rw [dynamic_concat_iff, or_iff_right scanned.static, Settles]
  simp only [scanned.recorded]

theorem Scanned.concat (scanned : Scanned past measured) {next : List Nat}
    (unsettled : ¬ leaf.Settles measured)
    (recorded : ∀ q, q ∈ next ↔ q ∈ measured ∨ leaf.Measures q) :
    Scanned (past ++ [leaf]) next where
  static := mt scanned.dynamic_iff.mp unsettled
  recorded q := by
    rw [recorded, scanned.recorded]
    simp only [List.mem_append, List.mem_singleton, or_and_right, exists_or, exists_eq_left]

/-- What a scan answers: the qubits measured by the end, or nothing if the leaves make a circuit
dynamic. -/
def Scans (leaves : List (Operation S)) : Option (List Nat) → Prop
  | some measured => Scanned leaves measured
  | none => Dynamic leaves

/-- A gate settles the matter if it is no barrier and touches a qubit that has been measured. -/
theorem Scanned.gate (scanned : Scanned past measured)
    (settles : leaf.Settles measured ↔ ∃ q ∈ measured, leaf.GatesOn q)
    (gates : ∀ q, leaf.GatesOn q ↔ leaf.kind ≠ .barrier ∧ q ∈ leaf.usedQubits.keys)
    (unmeasured : ∀ q, ¬ leaf.Measures q) :
    Scans (past ++ [leaf]) (measuredAfterGate? measured leaf) := by
  have touches : leaf.Settles measured ↔
      leaf.kind ≠ .barrier ∧ leaf.usedQubits.keys.any measured.contains = true := by
    rw [settles, List.any_eq_true]
    simp only [gates, List.contains_iff_mem]
    tauto
  unfold measuredAfterGate?
  split
  · next settled => exact scanned.dynamic_iff.mpr (touches.mpr settled)
  · next apart =>
      exact scanned.concat (mt touches.mp apart) fun q => (or_iff_left (unmeasured q)).symm

mutual

theorem Scanned.measuredAfter? : ∀ (op : Operation S) {past : List (Operation S)}
    {measured : List Nat}, Scanned past measured →
      Scans (past ++ op.leaves) (op.measuredAfter? measured)
  | .standard _, _, _, scanned =>
      scanned.gate (by simp [Settles, IsConditioned, IsReset]) (fun _ => gatesOn_standard_iff)
        fun _ => id
  | .symbolic _, _, _, scanned =>
      scanned.gate (by simp [Settles, IsConditioned, IsReset]) (fun _ => gatesOn_symbolic_iff)
        fun _ => id
  | .nonUnitary e, past, measured, scanned => by
      rw [leaves, Operation.measuredAfter?]
      split
      · next reset => exact scanned.dynamic_iff.mpr (.inr (.inl reset))
      · next other =>
          refine scanned.concat ?_ fun q => ?_
          · rintro (none | reset | ⟨q, -, none⟩)
            · exact none
            · exact other reset
            · exact none
          · rw [List.mem_append, Measures]
            exact or_congr_right (and_iff_right other).symm
  | .conditioned _ _, _, _, scanned => scanned.dynamic_iff.mpr (.inl trivial)
  | .compound ops, _, _, scanned => scanned.measuredAfterAll? ops

/-- From any point on, the scan stops at the first leaf that makes the circuit dynamic, and keeps
the qubits that are measured up to there. -/
theorem Scanned.measuredAfterAll? : ∀ (ops : List (Operation S)) {past : List (Operation S)}
    {measured : List Nat}, Scanned past measured →
      Scans (past ++ leavesAll ops) (Operation.measuredAfterAll? measured ops)
  | [], past, _, scanned => by
      rw [leavesAll, List.append_nil]
      exact scanned
  | op :: ops, past, measured, scanned => by
      have first := scanned.measuredAfter? op
      rw [leavesAll, ← List.append_assoc, Operation.measuredAfterAll?]
      cases after : op.measuredAfter? measured with
      | none =>
          rw [after] at first
          exact Dynamic.append first _
      | some next =>
          rw [after] at first
          exact Scanned.measuredAfterAll? ops first

end

theorem scanned_nil : Scanned ([] : List (Operation S)) [] where
  static := by simp [Dynamic]
  recorded q := by simp

/-- A condition and a reset are chains of one leaf, a measurement and a gate after it a chain of
two. -/
theorem dynamic_canonicalOrder_iff {ops : List (Operation S)} :
    Dynamic (leavesAll (Circuit.canonicalOrder ops)) ↔ Dynamic (leavesAll ops) := by
  have single : ∀ leaf, leaf ∈ leavesAll (Circuit.canonicalOrder ops) ↔ leaf ∈ leavesAll ops := by
    intro leaf
    rw [← List.singleton_sublist, sublist_leavesAll_canonicalOrder_iff (.singleton leaf),
      List.singleton_sublist]
  have pair : ∀ {q} {measurement gate : Operation S}, measurement.Measures q → gate.GatesOn q →
      ([measurement, gate].Sublist (leavesAll (Circuit.canonicalOrder ops)) ↔
        [measurement, gate].Sublist (leavesAll ops)) := by
    intro q measurement gate measures gates
    have overlap : measurement.Overlaps gate := ⟨q, measures.mem_usedQubits, gates.mem_usedQubits⟩
    exact sublist_leavesAll_canonicalOrder_iff (List.isChain_pair.mpr overlap)
  simp only [Dynamic, single]
  refine or_congr_right (or_congr_right ?_)
  refine exists_congr fun q => exists_congr fun measurement => exists_congr fun gate => ?_
  exact and_congr_left fun onQubit => pair onQubit.1 onQubit.2

end Operation

/-! ## Circuits -/

namespace Circuit

open Operation

theorem isDynamic_iff (c : Circuit S) : c.isDynamic = true ↔ Dynamic (leavesAll c.ops) := by
  have scans := scanned_nil.measuredAfterAll? c.ops
  rw [List.nil_append] at scans
  rw [isDynamic, Option.isNone_iff_eq_none]
  cases scan : Operation.measuredAfterAll? [] c.ops with
  | none =>
      rw [scan] at scans
      exact iff_of_true rfl scans
  | some measured =>
      rw [scan] at scans
      exact iff_of_false (Option.some_ne_none measured) scans.static

/-- A circuit is dynamic if, among its leaves in program order, there is an operation under a
condition, or a reset, or a measurement of a qubit that is followed, at any distance, by a gate
other than a barrier with that qubit as control or target; and it is not dynamic otherwise.
Reordering the operations does not change it. -/
theorem isDynamic_iff_leaves (c : Circuit S) :
    (c.isDynamic = true ↔
      (∃ leaf ∈ leavesAll c.ops, leaf.IsConditioned) ∨ (∃ leaf ∈ leavesAll c.ops, leaf.IsReset) ∨
      ∃ q measurement gate, [measurement, gate].Sublist (leavesAll c.ops) ∧
        measurement.Measures q ∧ gate.GatesOn q) ∧
    c.reorder.isDynamic = c.isDynamic := by
  refine ⟨isDynamic_iff c, ?_⟩
  rw [Bool.eq_iff_iff, isDynamic_iff, isDynamic_iff]
  exact dynamic_canonicalOrder_iff

end Circuit

end QuantumCircuit
