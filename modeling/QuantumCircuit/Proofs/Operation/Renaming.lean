import QuantumCircuit.Operation.Qubits
import QuantumCircuit.Proofs.SortedMap

/-!
# Renaming qubits

`occurrences` lists every control and target of an operation, also under conditions and in blocks:
these are the places that `remap` rewrites.  Renaming twice is renaming by the composition, and it
only matters what becomes of the qubits that occur.  The qubits that an operation touches are
renamed along.  An operation touches every qubit that occurs in it, as long as no block stands
under a condition.
-/

namespace QuantumCircuit

/-! ## Operands -/

theorem Gate.qubit_mem_operands {P : Type} {g : Gate P} {c : Control}
    (mem : c ∈ g.controls.keys) : c.qubit ∈ g.operands :=
  List.mem_append_left _ (List.mem_map_of_mem mem)

theorem Gate.target_mem_operands {P : Type} {g : Gate P} {q : Nat} (mem : q ∈ g.targets) :
    q ∈ g.operands :=
  List.mem_append_right _ mem

namespace Operation

variable {S : Type}

/-! ## Occurrences -/

mutual

/-- Every control and target, also under conditions and in blocks. -/
def occurrences : Operation S → List Nat
  | .standard g => g.operands
  | .symbolic g => g.operands
  | .nonUnitary e => e.targets
  | .conditioned op _ => op.occurrences
  | .compound ops => occurrencesAll ops
termination_by structural op => op

/-- Every control and target in a list of operations. -/
def occurrencesAll : List (Operation S) → List Nat
  | [] => []
  | op :: ops => op.occurrences ++ occurrencesAll ops
termination_by structural ops => ops

end

/-- Whether an operation is a gate or an effect, maybe under conditions. -/
def isPlain : Operation S → Bool
  | .standard _ => true
  | .symbolic _ => true
  | .nonUnitary _ => true
  | .conditioned op _ => op.isPlain
  | .compound _ => false

mutual

/-- Whether no block stands under a condition. -/
def conditionsPlain : Operation S → Bool
  | .standard _ => true
  | .symbolic _ => true
  | .nonUnitary _ => true
  | .conditioned op _ => op.isPlain
  | .compound ops => allConditionsPlain ops
termination_by structural op => op

/-- Whether no block stands under a condition in a list of operations. -/
def allConditionsPlain : List (Operation S) → Bool
  | [] => true
  | op :: ops => op.conditionsPlain && allConditionsPlain ops
termination_by structural ops => ops

end

/-! ## Own controls and targets -/

theorem ownsQubit_iff {op : Operation S} {q : Nat} :
    op.ownsQubit q = true ↔ q ∈ op.controls.keys.map (·.qubit) ∨ q ∈ op.targets := by
  rw [ownsQubit, Bool.or_eq_true, List.contains_iff_mem, List.any_eq_true, List.mem_map, or_comm]
  simp only [beq_iff_eq]

/-- A plain operation has no qubits beside its own controls and targets. -/
theorem mem_occurrences_of_isPlain {op : Operation S} (plain : op.isPlain = true) {q : Nat} :
    q ∈ op.occurrences ↔ op.ownsQubit q = true := by
  rw [ownsQubit_iff]
  induction op using isPlain.induct with
  | case1 g => exact List.mem_append
  | case2 g => exact List.mem_append
  | case3 e => simp [occurrences, targets, controls, SortedMap.keys, SortedMap.empty]
  | case4 op c ih => exact ih plain
  | case5 ops => contradiction

theorem controls_remap (f : Nat → Nat) (op : Operation S) :
    (op.remap f).controls = SortedSet.ofList (op.controls.keys.map (remapControl f)) := by
  induction op using isPlain.induct with
  | case1 g => rfl
  | case2 g => rfl
  | case3 e => rfl
  | case4 op c ih => exact ih
  | case5 ops => rfl

theorem targets_remap (f : Nat → Nat) (op : Operation S) :
    (op.remap f).targets = op.targets.map f := by
  induction op using isPlain.induct with
  | case1 g => rfl
  | case2 g => rfl
  | case3 e => rfl
  | case4 op c ih => exact ih
  | case5 ops => rfl

theorem ownsQubit_remap (f : Nat → Nat) (op : Operation S) (q : Nat) :
    (op.remap f).ownsQubit q = true ↔ ∃ p, op.ownsQubit p = true ∧ f p = q := by
  rw [ownsQubit_iff, controls_remap, targets_remap]
  simp only [ownsQubit_iff, List.mem_map, SortedSet.mem_keys_ofList]
  constructor
  · rintro (⟨_, ⟨control, mem, rfl⟩, rfl⟩ | ⟨target, mem, rfl⟩)
    · exact ⟨control.qubit, .inl ⟨control, mem, rfl⟩, rfl⟩
    · exact ⟨target, .inr mem, rfl⟩
  · rintro ⟨p, ⟨control, mem, rfl⟩ | mem, rfl⟩
    · exact .inl ⟨remapControl f control, ⟨control, mem, rfl⟩, rfl⟩
    · exact .inr ⟨p, mem, rfl⟩

/-! ## Touched qubits -/

mutual

/-- An operation touches the new names of the qubits that it touched. -/
theorem actsOn_remap (f : Nat → Nat) (q : Nat) : ∀ op : Operation S,
    (op.remap f).actsOn q = true ↔ ∃ p, op.actsOn p = true ∧ f p = q
  | .standard g => ownsQubit_remap f (.standard g) q
  | .symbolic g => ownsQubit_remap f (.symbolic g) q
  | .nonUnitary e => ownsQubit_remap f (.nonUnitary e) q
  | .conditioned op c => ownsQubit_remap f (.conditioned op c) q
  | .compound ops => anyActsOn_remapAll f q ops

theorem anyActsOn_remapAll (f : Nat → Nat) (q : Nat) : ∀ ops : List (Operation S),
    anyActsOn q (remapAll f ops) = true ↔ ∃ p, anyActsOn p ops = true ∧ f p = q
  | [] => by simp [remapAll, anyActsOn]
  | op :: ops => by
      simp only [remapAll, anyActsOn, Bool.or_eq_true, actsOn_remap f q op,
        anyActsOn_remapAll f q ops]
      constructor
      · rintro (⟨p, acts, named⟩ | ⟨p, acts, named⟩)
        · exact ⟨p, .inl acts, named⟩
        · exact ⟨p, .inr acts, named⟩
      · rintro ⟨p, acts | acts, named⟩
        · exact .inl ⟨p, acts, named⟩
        · exact .inr ⟨p, acts, named⟩

end

mutual

/-- Where no block stands under a condition, an operation touches every qubit that occurs in it. -/
theorem actsOn_of_mem_occurrences {q : Nat} : ∀ {op : Operation S}, op.conditionsPlain = true →
    q ∈ op.occurrences → op.actsOn q = true
  | .standard _, _, mem => (mem_occurrences_of_isPlain rfl).mp mem
  | .symbolic _, _, mem => (mem_occurrences_of_isPlain rfl).mp mem
  | .nonUnitary _, _, mem => (mem_occurrences_of_isPlain rfl).mp mem
  | .conditioned _ _, plain, mem => (mem_occurrences_of_isPlain plain).mp mem
  | .compound _, plain, mem => anyActsOn_of_mem_occurrencesAll plain mem

theorem anyActsOn_of_mem_occurrencesAll {q : Nat} : ∀ {ops : List (Operation S)},
    allConditionsPlain ops = true → q ∈ occurrencesAll ops → anyActsOn q ops = true
  | op :: ops, plain, mem => by
      rw [allConditionsPlain, Bool.and_eq_true] at plain
      rw [anyActsOn, Bool.or_eq_true]
      rcases List.mem_append.mp mem with here | later
      · exact .inl (actsOn_of_mem_occurrences plain.1 here)
      · exact .inr (anyActsOn_of_mem_occurrencesAll plain.2 later)

end

/-! ## Laws of renaming -/

/-- Renaming the controls of a gate twice. -/
theorem remapGate_remapGate {P : Type} (f g : Nat → Nat) (gate : Gate P) :
    remapGate g (remapGate f gate) = remapGate (g ∘ f) gate := by
  have controls : SortedSet.ofList ((SortedSet.ofList (gate.controls.keys.map
      (remapControl f))).keys.map (remapControl g)) =
      SortedSet.ofList (gate.controls.keys.map (remapControl (g ∘ f))) := by
    apply SortedSet.ext_keys
    intro control
    simp only [SortedSet.mem_keys_ofList, List.mem_map]
    constructor
    · rintro ⟨_, ⟨original, mem, rfl⟩, rfl⟩
      exact ⟨original, mem, rfl⟩
    · rintro ⟨original, mem, rfl⟩
      exact ⟨_, ⟨original, mem, rfl⟩, rfl⟩
  simp only [remapGate, controls, List.map_map]

mutual

/-- Renaming twice is renaming by the composition. -/
theorem remap_remap (f g : Nat → Nat) : ∀ op : Operation S,
    (op.remap f).remap g = op.remap (g ∘ f)
  | .standard gate => congrArg Operation.standard (remapGate_remapGate f g gate)
  | .symbolic gate => congrArg Operation.symbolic (remapGate_remapGate f g gate)
  | .nonUnitary e => by simp only [remap, List.map_map]
  | .conditioned op c => by rw [remap, remap, remap, remap_remap f g op]
  | .compound ops => by rw [remap, remap, remap, remapAll_remapAll f g ops]

theorem remapAll_remapAll (f g : Nat → Nat) : ∀ ops : List (Operation S),
    remapAll g (remapAll f ops) = remapAll (g ∘ f) ops
  | [] => rfl
  | op :: ops => by
      rw [remapAll, remapAll, remapAll, remap_remap f g op, remapAll_remapAll f g ops]

end

theorem remapGate_congr {P : Type} {f g : Nat → Nat} {gate : Gate P}
    (agree : ∀ q ∈ gate.operands, f q = g q) : remapGate f gate = remapGate g gate := by
  have controls : gate.controls.keys.map (remapControl f) =
      gate.controls.keys.map (remapControl g) := by
    apply List.map_congr_left
    intro control mem
    rw [remapControl, remapControl,
      agree control.qubit (Gate.qubit_mem_operands mem)]
  have targets : gate.targets.map f = gate.targets.map g :=
    List.map_congr_left fun q mem => agree q (Gate.target_mem_operands mem)
  rw [remapGate, remapGate, controls, targets]

mutual

/-- It only matters what becomes of the qubits that occur. -/
theorem remap_congr {f g : Nat → Nat} : ∀ {op : Operation S},
    (∀ q ∈ op.occurrences, f q = g q) → op.remap f = op.remap g
  | .standard _, agree => congrArg Operation.standard (remapGate_congr agree)
  | .symbolic _, agree => congrArg Operation.symbolic (remapGate_congr agree)
  | .nonUnitary e, agree => by
      have targets : e.targets.map f = e.targets.map g := List.map_congr_left agree
      rw [remap, remap, targets]
  | .conditioned op c, agree => by
      have inner : op.remap f = op.remap g := remap_congr agree
      rw [remap, remap, inner]
  | .compound ops, agree => by
      have inner : remapAll f ops = remapAll g ops := remapAll_congr agree
      rw [remap, remap, inner]

theorem remapAll_congr {f g : Nat → Nat} : ∀ {ops : List (Operation S)},
    (∀ q ∈ occurrencesAll ops, f q = g q) → remapAll f ops = remapAll g ops
  | [], _ => rfl
  | op :: ops, agree => by
      rw [remapAll, remapAll,
        remap_congr fun q mem => agree q (List.mem_append_left _ mem),
        remapAll_congr fun q mem => agree q (List.mem_append_right _ mem)]

end

theorem remapGate_id {P : Type} (gate : Gate P) : remapGate id gate = gate := by
  have controls : SortedSet.ofList (gate.controls.keys.map (remapControl id)) =
      gate.controls := by
    apply SortedSet.ext_keys
    intro control
    have same : remapControl id = id := rfl
    rw [SortedSet.mem_keys_ofList, same, List.map_id]
  rw [remapGate, controls, List.map_id]

mutual

/-- Leaving every name as it is changes nothing. -/
theorem remap_id : ∀ op : Operation S, op.remap id = op
  | .standard gate => congrArg Operation.standard (remapGate_id gate)
  | .symbolic gate => congrArg Operation.symbolic (remapGate_id gate)
  | .nonUnitary e => by rw [remap, List.map_id]
  | .conditioned op c => by rw [remap, remap_id op]
  | .compound ops => by rw [remap, remapAll_id ops]

theorem remapAll_id : ∀ ops : List (Operation S), remapAll id ops = ops
  | [] => rfl
  | op :: ops => by rw [remapAll, remap_id op, remapAll_id ops]

end

end Operation

end QuantumCircuit
