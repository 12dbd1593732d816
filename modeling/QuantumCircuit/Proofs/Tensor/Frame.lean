import QuantumCircuit.Proofs.Tensor.Action
import QuantumCircuit.Tensor.Export

/-!
# The local frame of a gate

The export hands a gate to the backend with each qubit replaced by its rank among the qubits of the
gate.  Reading a state off the qubits in descending order puts the bit of each qubit at its rank,
so the gate on the ranks acts on what is read as the gate itself acts on the state, as long as all
other qubits agree.
-/

namespace QuantumCircuit

/-- Whether a gate has as many targets as its kind, and no qubit serves twice. -/
def Gate.Proper {P : Type} (g : Gate P) : Prop :=
  g.kind.targetCount? = some g.targets.length ∧ g.operands.Nodup

instance {P : Type} (g : Gate P) : Decidable g.Proper :=
  inferInstanceAs (Decidable (_ ∧ _))

namespace Tape

open DenseOperator

variable {S : Type} {g : Gate S}

/-! ## Roles -/

/-- Whatever roles its qubits have, these are the qubits of the gate. -/
theorem mem_keys_roles {q : Nat} : q ∈ (roles g).keys ↔ q ∈ g.operands := by
  rw [SortedMap.mem_keys_iff, SortedMap.contains, roles, SortedMap.find?_insertAll_const,
    Gate.operands, List.mem_append]
  have controls := SortedMap.contains_ofList (k := q)
    (l := g.controls.keys.map fun c => (c.qubit, some c.polarity))
  rw [SortedMap.contains, List.map_map] at controls
  by_cases target : q ∈ g.targets
  · simp [target]
  · rw [if_neg target, controls]
    simp [target]

/-- A gate on distinct qubits has as many of them as it has controls and targets. -/
theorem length_keys_roles (distinct : g.operands.Nodup) :
    (roles g).keys.length = g.operands.length :=
  ((List.perm_ext_iff_of_nodup (roles g).nodup_keys distinct).mpr fun _ => mem_keys_roles).length_eq

/-- The roles of the qubits of a gate on distinct qubits. -/
theorem find?_roles_eq_some_iff (distinct : g.operands.Nodup) {q : Nat} {role : Option Polarity} :
    (roles g).find? q = some role ↔
      (q ∈ g.targets ∧ role = none) ∨
        ∃ c ∈ g.controls.keys, c.qubit = q ∧ some c.polarity = role := by
  rcases List.nodup_append.mp distinct with ⟨controlsDistinct, _, apart⟩
  have stored : (SortedMap.ofList
      (g.controls.keys.map fun c => (c.qubit, some c.polarity))).find? q = some role ↔
        ∃ c ∈ g.controls.keys, c.qubit = q ∧ some c.polarity = role := by
    rw [SortedMap.find?_ofList_eq_some_iff (by rwa [List.map_map]), List.mem_map]
    simp only [Prod.mk.injEq]
  rw [roles, SortedMap.find?_insertAll_const]
  by_cases target : q ∈ g.targets
  · have noControl : ¬ ∃ c ∈ g.controls.keys, c.qubit = q ∧ some c.polarity = role := by
      rintro ⟨c, mem, rfl, _⟩
      exact apart _ (List.mem_map.mpr ⟨c, mem, rfl⟩) _ target rfl
    rw [if_pos target, or_iff_left noControl, Option.some_inj, eq_comm, and_iff_right target]
  · rw [if_neg target, stored]
    simp [target]

/-! ## Ranks -/

/-- The qubits of a gate in the order in which the export lists their legs. -/
def descending (g : Gate S) : List Nat :=
  (roles g).keys.reverse

theorem mem_descending {q : Nat} : q ∈ descending g ↔ q ∈ g.operands := by
  rw [descending, List.mem_reverse, mem_keys_roles]

theorem length_descending (distinct : g.operands.Nodup) :
    (descending g).length = g.operands.length := by
  rw [descending, List.length_reverse, length_keys_roles distinct]

/-- What is read off the qubits in descending order has the bit of each qubit at its rank. -/
theorem testBit_gather_descending (g : Gate S) (state i : Nat) :
    (gather (descending g) state).testBit i =
      ((roles g).keys[i]?).any fun q => state.testBit q := by
  rw [testBit_gather, descending, List.reverse_reverse]

theorem testBit_gather_rank {q : Nat} (mem : q ∈ g.operands) (state : Nat) :
    (gather (descending g) state).testBit ((roles g).keys.idxOf q) = state.testBit q := by
  rw [testBit_gather_descending, List.getElem?_idxOf (mem_keys_roles.mpr mem), Option.any_some]

theorem rank_lt {q : Nat} (mem : q ∈ g.operands) :
    (roles g).keys.idxOf q < (roles g).keys.length :=
  List.idxOf_lt_length_of_mem (mem_keys_roles.mpr mem)

/-! ## The gate on the ranks -/

/-- The gate on the ranks has the controls of the gate, each on the rank of its qubit. -/
theorem mem_controls_localGate (distinct : g.operands.Nodup) {c : Control} :
    c ∈ (localGate g).controls.keys ↔
      ∃ d ∈ g.controls.keys, ⟨(roles g).keys.idxOf d.qubit, d.polarity⟩ = c := by
  rw [localGate, SortedSet.mem_keys_ofList, List.mem_filterMap]
  constructor
  · rintro ⟨⟨q, role⟩, stored, isControl⟩
    rcases (find?_roles_eq_some_iff distinct).mp (SortedMap.find?_of_mem_entries stored) with
      ⟨_, rfl⟩ | ⟨d, mem, rfl, rfl⟩
    · contradiction
    · exact ⟨d, mem, Option.some.inj isControl⟩
  · rintro ⟨d, mem, rfl⟩
    refine ⟨(d.qubit, some d.polarity), SortedMap.mem_entries_of_find? ?_, rfl⟩
    exact (find?_roles_eq_some_iff distinct).mpr (.inr ⟨d, mem, rfl, rfl⟩)

/-- The gate on the ranks has the targets of the gate, each on the rank of its qubit. -/
theorem mem_targets_localGate {i : Nat} :
    i ∈ (localGate g).targets ↔ ∃ q ∈ g.targets, (roles g).keys.idxOf q = i :=
  List.mem_map

/-- The gate on the ranks has the operands of the gate, each replaced by its rank. -/
theorem operands_localGate_perm (distinct : g.operands.Nodup) :
    (localGate g).operands.Perm (g.operands.map (roles g).keys.idxOf) := by
  let onRank (d : Control) : Control := ⟨(roles g).keys.idxOf d.qubit, d.polarity⟩
  have renamed : (g.controls.keys.map onRank).Nodup := by
    apply g.controls.nodup_keys.map_on
    intro d mem d' _ equal
    rcases Control.mk.inj equal with ⟨ranks, polarities⟩
    have member := mem_keys_roles.mpr (Gate.qubit_mem_operands mem)
    have qubits := (List.idxOf_inj member).mp ranks
    exact congrArg₂ Control.mk qubits polarities
  have controls : (localGate g).controls.keys.Perm (g.controls.keys.map onRank) :=
    (List.perm_ext_iff_of_nodup (localGate g).controls.nodup_keys renamed).mpr fun c => by
      rw [mem_controls_localGate distinct, List.mem_map]
  rw [Gate.operands, Gate.operands, List.map_append]
  refine List.Perm.append ?_ (List.Perm.refl _)
  rw [List.map_map]
  exact (controls.map (·.qubit)).trans (List.Perm.of_eq (List.map_map))

/-- The gate on the ranks is proper again. -/
theorem proper_localGate (proper : g.Proper) : (localGate g).Proper := by
  refine ⟨proper.1.trans (congrArg some (List.length_map _).symm), ?_⟩
  rw [(operands_localGate_perm proper.2).nodup_iff]
  apply proper.2.map_on
  intro q mem q' _ equal
  exact (List.idxOf_inj (mem_keys_roles.mpr mem)).mp equal

/-- The gate on the ranks fills its qubits without gaps. -/
theorem width_localGate (distinct : g.operands.Nodup) :
    (Operation.standard (localGate g)).width = g.operands.length := by
  have operands : ∀ i, i ∈ (localGate g).operands ↔
      ∃ q ∈ g.operands, (roles g).keys.idxOf q = i := fun i => by
    rw [(operands_localGate_perm distinct).mem_iff, List.mem_map]
  have same : ∀ n, (Operation.standard (localGate g)).width ≤ n ↔ (roles g).keys.length ≤ n := by
    intro n
    rw [Operation.width_standard_le_iff]
    constructor
    · intro below
      by_contra less
      have inside : n < (roles g).keys.length := Nat.lt_of_not_le less
      have rank := (roles g).nodup_keys.idxOf_getElem n inside
      have isOperand := (operands n).mpr
        ⟨_, mem_keys_roles.mp (List.getElem_mem inside), rank⟩
      exact Nat.lt_irrefl n (below n isOperand)
    · intro bound i mem
      rcases (operands i).mp mem with ⟨q, isOperand, rfl⟩
      exact Nat.lt_of_lt_of_le (rank_lt isOperand) bound
  rw [← length_keys_roles distinct]
  exact Nat.le_antisymm ((same _).mpr (Nat.le_refl _)) ((same _).mp (Nat.le_refl _))

/-! ## What the gate on the ranks does -/

/-- What is read off the qubits satisfies the controls on the ranks if the state satisfies those of
the gate. -/
theorem active_localGate (distinct : g.operands.Nodup) (state : Nat) :
    active (localGate g).controls.keys (gather (descending g) state) =
      active g.controls.keys state := by
  rw [Bool.eq_iff_iff, active_iff, active_iff]
  constructor
  · intro satisfied d mem
    rw [← testBit_gather_rank (Gate.qubit_mem_operands mem)]
    exact satisfied _ ((mem_controls_localGate distinct).mpr ⟨d, mem, rfl⟩)
  · intro satisfied c mem
    rcases (mem_controls_localGate distinct).mp mem with ⟨d, isControl, rfl⟩
    rw [testBit_gather_rank (Gate.qubit_mem_operands isControl), satisfied d isControl]

/-- The targets on the ranks select of what is read what the targets select of the state. -/
theorem gather_localGate (g : Gate S) (state : Nat) :
    gather (localGate g).targets (gather (descending g) state) = gather g.targets state := by
  apply gather_map
  intro q mem
  exact testBit_gather_rank (Gate.target_mem_operands mem) state

/-- States that agree on all other qubits agree outside of the targets if what is read off them
agrees outside of the ranks of the targets. -/
theorem clear_localGate_iff {row col : Nat}
    (others : clear (descending g) row = clear (descending g) col) :
    clear (localGate g).targets (gather (descending g) row) =
        clear (localGate g).targets (gather (descending g) col) ↔
      clear g.targets row = clear g.targets col := by
  rw [clear_eq_iff, clear_eq_iff]
  constructor
  · intro agree q notTarget
    by_cases mem : q ∈ g.operands
    · rw [← testBit_gather_rank mem row, ← testBit_gather_rank mem col]
      apply agree
      intro isTarget
      rcases mem_targets_localGate.mp isTarget with ⟨q', isTarget, equal⟩
      have member := mem_keys_roles.mpr (Gate.target_mem_operands isTarget)
      rw [(List.idxOf_inj member).mp equal] at isTarget
      exact notTarget isTarget
    · exact clear_eq_iff.mp others q fun isListed => mem (mem_descending.mp isListed)
  · intro agree i other
    rw [testBit_gather_descending, testBit_gather_descending]
    cases qubit : (roles g).keys[i]? with
    | none => rfl
    | some q =>
        rcases List.getElem?_eq_some_iff.mp qubit with ⟨inside, rfl⟩
        apply agree
        intro isTarget
        have rank := (roles g).nodup_keys.idxOf_getElem i inside
        exact other (mem_targets_localGate.mpr ⟨_, isTarget, rank⟩)

/-- A gate acts on states as the gate on the ranks acts on what is read off its qubits, if all
other qubits agree, and not at all otherwise. -/
theorem action_localGate [Scalar S] (distinct : g.operands.Nodup) (unitary : Matrix (Complex S))
    (row col : Nat) :
    action unitary g.controls.keys g.targets row col =
      if clear (descending g) row = clear (descending g) col then
        action unitary (localGate g).controls.keys (localGate g).targets
          (gather (descending g) row) (gather (descending g) col)
      else .zero := by
  by_cases others : clear (descending g) row = clear (descending g) col
  · rw [if_pos others]
    exact action_congr unitary (active_localGate distinct col).symm (gather_localGate g row).symm
      (gather_localGate g col).symm (clear_localGate_iff others).symm
  · rcases not_forall.mp (fun agree => others (clear_eq_iff.mpr agree)) with ⟨q, differ⟩
    rcases Classical.not_imp.mp differ with ⟨notListed, differ⟩
    have notTarget : q ∉ g.targets := fun isTarget =>
      notListed (mem_descending.mpr (Gate.target_mem_operands isTarget))
    rw [if_neg others]
    exact action_eq_zero differ notTarget unitary

end Tape

end QuantumCircuit
