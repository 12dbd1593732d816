import QuantumCircuit.Proofs.Operation.Blocks
import QuantumCircuit.Proofs.Operation.Renaming

/-!
# What an operation touches

The qubits of an operation are asked for in two ways, and both give the same answer.  It lists the
controls and targets of an operation under a condition as if they were its own, and a block has none
of its own.  So the qubits of a block under a condition are hidden, although renaming reaches them:
what is touched are the qubits that occur anywhere else, and this is all of them exactly if the
hidden ones occur elsewhere, too.
-/

namespace QuantumCircuit.Operation

variable {S : Type}

/-! ## Places that are seen -/

mutual

/-- Every control and target that stands in no block under a condition. -/
def exposed : Operation S → List Nat
  | .standard g => g.operands
  | .symbolic g => g.operands
  | .nonUnitary e => e.targets
  | .conditioned op _ => if op.isPlain then op.occurrences else []
  | .compound ops => exposedAll ops
termination_by structural op => op

/-- Every control and target of a list of operations that stands in no block under a condition. -/
def exposedAll : List (Operation S) → List Nat
  | [] => []
  | op :: ops => op.exposed ++ exposedAll ops
termination_by structural ops => ops

end

mutual

/-- Every control and target that stands in a block under a condition. -/
def hidden : Operation S → List Nat
  | .standard _ => []
  | .symbolic _ => []
  | .nonUnitary _ => []
  | .conditioned op _ => if op.isPlain then [] else op.occurrences
  | .compound ops => hiddenAll ops
termination_by structural op => op

/-- Every control and target of a list of operations that stands in a block under a condition. -/
def hiddenAll : List (Operation S) → List Nat
  | [] => []
  | op :: ops => op.hidden ++ hiddenAll ops
termination_by structural ops => ops

end

mutual

/-- Every place is exposed or hidden. -/
theorem mem_occurrences_iff {q : Nat} : ∀ op : Operation S,
    q ∈ op.occurrences ↔ q ∈ op.exposed ∨ q ∈ op.hidden
  | .standard _ => (or_iff_left List.not_mem_nil).symm
  | .symbolic _ => (or_iff_left List.not_mem_nil).symm
  | .nonUnitary _ => (or_iff_left List.not_mem_nil).symm
  | .conditioned op _ => by
      rw [occurrences, exposed, hidden]
      split
      · exact (or_iff_left List.not_mem_nil).symm
      · exact (or_iff_right List.not_mem_nil).symm
  | .compound ops => mem_occurrencesAll_iff ops

theorem mem_occurrencesAll_iff {q : Nat} : ∀ ops : List (Operation S),
    q ∈ occurrencesAll ops ↔ q ∈ exposedAll ops ∨ q ∈ hiddenAll ops
  | [] => (or_iff_left List.not_mem_nil).symm
  | op :: ops => by
      rw [occurrencesAll, exposedAll, hiddenAll, List.mem_append, List.mem_append, List.mem_append,
        mem_occurrences_iff op, mem_occurrencesAll_iff ops, or_or_or_comm]

end

/-! ## Places that are rewritten -/

theorem mem_operands_remapGate {P : Type} (f : Nat → Nat) (g : Gate P) (q : Nat) :
    q ∈ (remapGate f g).operands ↔ ∃ p ∈ g.operands, f p = q := by
  simp only [Gate.operands, remapGate, List.mem_append, List.mem_map, SortedSet.mem_keys_ofList]
  constructor
  · rintro (⟨_, ⟨control, mem, rfl⟩, rfl⟩ | ⟨target, mem, rfl⟩)
    · exact ⟨control.qubit, .inl ⟨control, mem, rfl⟩, rfl⟩
    · exact ⟨target, .inr mem, rfl⟩
  · rintro ⟨p, ⟨control, mem, rfl⟩ | mem, rfl⟩
    · exact .inl ⟨remapControl f control, ⟨control, mem, rfl⟩, rfl⟩
    · exact .inr ⟨p, mem, rfl⟩

mutual

/-- Renaming rewrites every place, hidden or not. -/
theorem mem_occurrences_remap (f : Nat → Nat) (q : Nat) : ∀ op : Operation S,
    q ∈ (op.remap f).occurrences ↔ ∃ p ∈ op.occurrences, f p = q
  | .standard g => mem_operands_remapGate f g q
  | .symbolic g => mem_operands_remapGate f g q
  | .nonUnitary _ => List.mem_map
  | .conditioned op _ => mem_occurrences_remap f q op
  | .compound ops => mem_occurrencesAll_remapAll f q ops

theorem mem_occurrencesAll_remapAll (f : Nat → Nat) (q : Nat) : ∀ ops : List (Operation S),
    q ∈ occurrencesAll (remapAll f ops) ↔ ∃ p ∈ occurrencesAll ops, f p = q
  | [] => by simp [remapAll, occurrencesAll]
  | op :: ops => by
      simp only [remapAll, occurrencesAll, List.mem_append, mem_occurrences_remap f q op,
        mem_occurrencesAll_remapAll f q ops, or_and_right, exists_or]

end

/-! ## What is touched -/

/-- What is no gate or effect under its conditions shows no controls and targets. -/
theorem ownsQubit_of_not_isPlain {op : Operation S} (block : op.isPlain = false) (q : Nat) :
    op.ownsQubit q = false := by
  induction op using isPlain.induct with
  | case1 g => contradiction
  | case2 g => contradiction
  | case3 e => contradiction
  | case4 op c ih => exact ih block
  | case5 ops => rfl

mutual

/-- An operation touches the qubits that occur in its exposed places. -/
theorem actsOn_iff_mem_exposed {q : Nat} : ∀ op : Operation S,
    op.actsOn q = true ↔ q ∈ op.exposed
  | .standard _ => (mem_occurrences_of_isPlain rfl).symm
  | .symbolic _ => (mem_occurrences_of_isPlain rfl).symm
  | .nonUnitary _ => (mem_occurrences_of_isPlain rfl).symm
  | .conditioned op c => by
      change op.ownsQubit q = true ↔ _
      rw [exposed]
      cases plain : op.isPlain with
      | true => exact (mem_occurrences_of_isPlain plain).symm
      | false => simp [ownsQubit_of_not_isPlain plain]
  | .compound ops => anyActsOn_iff_mem_exposedAll ops

theorem anyActsOn_iff_mem_exposedAll {q : Nat} : ∀ ops : List (Operation S),
    anyActsOn q ops = true ↔ q ∈ exposedAll ops
  | [] => by simp [anyActsOn, exposedAll]
  | op :: ops => by
      rw [anyActsOn, Bool.or_eq_true, exposedAll, List.mem_append, actsOn_iff_mem_exposed op,
        anyActsOn_iff_mem_exposedAll ops]

end

theorem mem_ownQubits {op : Operation S} {q : Nat} :
    q ∈ op.ownQubits.keys ↔ op.ownsQubit q = true := by
  rw [ownQubits, SortedSet.mem_keys_ofList, ownsQubit_iff, List.mem_append]

mutual

/-- The qubits that an operation lists are those that it acts on. -/
theorem mem_usedQubits_iff_actsOn {q : Nat} : ∀ op : Operation S,
    q ∈ op.usedQubits.keys ↔ op.actsOn q = true
  | .standard _ => mem_ownQubits
  | .symbolic _ => mem_ownQubits
  | .nonUnitary _ => mem_ownQubits
  | .conditioned _ _ => mem_ownQubits
  | .compound ops => mem_usedQubitsAll_iff_anyActsOn ops

theorem mem_usedQubitsAll_iff_anyActsOn {q : Nat} : ∀ ops : List (Operation S),
    q ∈ (usedQubitsAll ops).keys ↔ anyActsOn q ops = true
  | [] => by simp [usedQubitsAll, anyActsOn, SortedMap.keys, SortedMap.empty]
  | op :: ops => by
      rw [usedQubitsAll, SortedSet.mem_keys_union, mem_usedQubitsAll_iff_anyActsOn ops,
        mem_usedQubits_iff_actsOn op, anyActsOn, Bool.or_eq_true, or_comm]

end

/-- Both queries for the qubits of an operation give those of its exposed places.  They are all
qubits that occur in it, which are the ones that renaming rewrites, exactly if those that occur in a
block under a condition also occur outside of such blocks. -/
theorem usedQubits_complete_iff (op : Operation S) :
    (∀ q, (op.actsOn q = true ↔ q ∈ op.usedQubits.keys) ∧
      (q ∈ op.usedQubits.keys ↔ q ∈ op.exposed) ∧
      (q ∈ op.occurrences ↔ q ∈ op.exposed ∨ q ∈ op.hidden)) ∧
    (∀ f q, q ∈ (op.remap f).occurrences ↔ ∃ p ∈ op.occurrences, f p = q) ∧
    ((∀ q, q ∈ op.usedQubits.keys ↔ q ∈ op.occurrences) ↔ ∀ q ∈ op.hidden, q ∈ op.exposed) := by
  have used : ∀ q, q ∈ op.usedQubits.keys ↔ q ∈ op.exposed := fun q =>
    (mem_usedQubits_iff_actsOn op).trans (actsOn_iff_mem_exposed op)
  refine ⟨fun q => ⟨(mem_usedQubits_iff_actsOn op).symm, used q, mem_occurrences_iff op⟩,
    fun f q => mem_occurrences_remap f q op, ?_⟩
  simp only [used, mem_occurrences_iff op, iff_self_or]

/-- A gate in a block under a condition: no query lists its qubit, but renaming rewrites it. -/
theorem not_used_conditioned :
    let gate : Gate Float := ⟨.x, .empty, [1], []⟩
    let op : Operation Float := .conditioned (.compound [.standard gate]) ⟨⟨0, 1⟩, 1, .eq⟩
    op.occurrences = [1] ∧ op.usedQubits.keys = [] ∧ op.actsOn 1 = false ∧
      (op.remap (· + 1)).occurrences = [2] ∧ ¬ ∀ q ∈ op.hidden, q ∈ op.exposed := by
  decide +kernel

end QuantumCircuit.Operation
