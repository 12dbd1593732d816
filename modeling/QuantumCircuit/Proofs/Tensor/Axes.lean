import QuantumCircuit.Proofs.Tensor.Wires

/-!
# Reading a record along its legs

A record is a tensor with an axis for each leg, and its data lists the entries with the first leg
most significant.  The ingoing legs come first and the data is the gate's matrix row by row, so the
bits of the ingoing legs select a row and those of the outgoing legs a column.  But it is the column
of a matrix that stands for the state before a gate.  So along its legs a record reads the
amplitudes of the gate backwards, which shows unless the matrix is symmetric.
-/

namespace QuantumCircuit

open DenseOperator

variable {S : Type} [TrigScalar S]

/-! ## Amplitudes -/

namespace Gate

/-- The amplitude of a gate from one basis state to another, of any number of qubits: the entry in
the row of the state after the gate and the column of the state before it. -/
def amplitude? (g : Gate S) (before after : Nat) : Option (Complex S) :=
  (gateMatrix? g.kind g.params).map fun unitary =>
    action unitary g.controls.keys g.targets after before

/-- The amplitudes are the entries of the matrix that the backend builds for the gate itself, over
any number of qubits with room for the gate. -/
theorem amplitude?_eq_entry {g : Gate S} (proper : g.Proper) {n : Nat}
    (below : ∀ q ∈ g.operands, q < n) {diagram : Diagram S} {m : Matrix (Complex S)}
    (built : (Backend.dense.build () (.standard g)).2 = .ok diagram)
    (found : diagram.matrix? n = some m) (before after : Nat) :
    g.amplitude? before after = some (m.entry after before) := by
  rcases exists_gateMatrix? proper.1 g.params with ⟨unitary, isMatrix, _⟩
  obtain ⟨_, _, entries⟩ := (Tape.build_dense_spec proper isMatrix below).2 diagram m built found
  rw [amplitude?, isMatrix, Option.map_some, entries]

/-- A gate leads to no other bits on the qubits that it does not touch. -/
theorem amplitude?_eq_zero {g : Gate S} (proper : g.Proper) {before after q : Nat}
    (other : q ∉ g.operands) (differ : before.testBit q ≠ after.testBit q) :
    g.amplitude? before after = some .zero := by
  rcases exists_gateMatrix? proper.1 g.params with ⟨unitary, isMatrix, _⟩
  have notTarget : q ∉ g.targets := fun target => other (target_mem_operands target)
  rw [amplitude?, isMatrix, Option.map_some, action_eq_zero differ.symm notTarget]

/-- Whether the amplitudes of a gate are the same either way. -/
def IsSymmetric (g : Gate S) : Prop :=
  ∀ before after, g.amplitude? before after = g.amplitude? after before

end Gate

/-! ## Symmetric gates -/

namespace Gate

omit [TrigScalar S] in
/-- The controls of a gate on distinct qubits can be satisfied. -/
theorem exists_active {g : Gate S} (distinct : g.operands.Nodup) :
    ∃ state, active g.controls.keys state = true := by
  have within := Operation.width_standard_le_iff.mp (Nat.le_refl (Operation.standard g).width)
  have single := List.inj_on_of_nodup_map (List.nodup_append.mp distinct).1
  refine ⟨Nat.ofBits fun q : Fin (Operation.standard g).width =>
    decide ((⟨q, .positive⟩ : Control) ∈ g.controls.keys), active_iff.mpr fun c mem => ?_⟩
  rw [Nat.testBit_ofBits_lt _ _ (within _ (qubit_mem_operands mem)), decide_eq_decide]
  constructor
  · intro positive
    rw [← single positive mem rfl]
  · intro positive
    rw [← positive]
    exact mem

/-- A gate is symmetric exactly if its own matrix is. -/
theorem isSymmetric_iff {g : Gate S} (proper : g.Proper) {unitary : Matrix (Complex S)}
    (found : gateMatrix? g.kind g.params = some unitary) :
    g.IsSymmetric ↔ ∀ i < numStates g.targets.length, ∀ j < numStates g.targets.length,
      unitary.entry i j = unitary.entry j i := by
  obtain ⟨_, targetsDistinct, apart⟩ := List.nodup_append.mp proper.2
  have sameControls : ∀ {before after}, clear g.targets before = clear g.targets after →
      active g.controls.keys before = active g.controls.keys after := fun same =>
    active_congr fun c mem => clear_eq_iff.mp same c.qubit fun target =>
      apart _ (List.mem_map.mpr ⟨c, mem, rfl⟩) _ target rfl
  have amplitude : ∀ before after, g.amplitude? before after =
      some (action unitary g.controls.keys g.targets after before) := fun before after => by
    rw [amplitude?, found, Option.map_some]
  constructor
  · intro symmetric i iLt j jLt
    rcases exists_active proper.2 with ⟨state, satisfied⟩
    let written (bits : Nat) := scatter g.targets bits (clear g.targets state)
    obtain ⟨clearedI, gatheredI⟩ : clear g.targets (written i) = clear g.targets state ∧
      i = gather g.targets (written i) := (scatter_clear_eq_iff targetsDistinct iLt).mp rfl
    obtain ⟨clearedJ, gatheredJ⟩ : clear g.targets (written j) = clear g.targets state ∧
      j = gather g.targets (written j) := (scatter_clear_eq_iff targetsDistinct jLt).mp rfl
    have entries := symmetric (written j) (written i)
    rw [amplitude, amplitude, action, action, sameControls clearedI, sameControls clearedJ,
      if_pos satisfied, if_pos satisfied, clearedI, clearedJ, if_pos rfl, if_pos rfl,
      ← gatheredI, ← gatheredJ] at entries
    exact Option.some.inj entries
  · intro symmetric before after
    rw [amplitude, amplitude, action, action]
    by_cases same : clear g.targets before = clear g.targets after
    · rw [if_pos same, if_pos same.symm, sameControls same,
        symmetric _ (gather_lt g.targets after) _ (gather_lt g.targets before)]
      simp only [eq_comm]
    · have different : before ≠ after := by
        rintro rfl
        exact same rfl
      rw [if_neg same, if_neg (Ne.symm same), if_neg different, if_neg different.symm, ite_self,
        ite_self]

end Gate

/-! ## Labelled tensors -/

namespace TensorRecord

omit [TrigScalar S]

/-- The place in the data of the entry at some bits of the legs, which runs through the axes in the
order of the legs, the last one fastest. -/
def offset (record : TensorRecord S) (bits : String → Bool) : Nat :=
  (record.legs.zip record.shape).foldl (fun acc axis => axis.2 * acc + (bits axis.1).toNat) 0

/-- The entry of a record at some bits of its legs. -/
def at? (record : TensorRecord S) (bits : String → Bool) : Option (Complex S) :=
  record.data[record.offset bits]?

/-- Only the bits of its own legs matter to a record. -/
theorem at?_congr {record : TensorRecord S} {bits bits' : String → Bool}
    (agree : ∀ leg ∈ record.legs, bits leg = bits' leg) : record.at? bits = record.at? bits' := by
  have same : record.offset bits = record.offset bits' := by
    apply List.foldl_ext
    rintro acc ⟨leg, size⟩ mem
    rw [agree leg (List.of_mem_zip mem).1]
  rw [at?, at?, same]

theorem offset_eq_spelled {record : TensorRecord S} {size : Nat}
    (shape : record.shape = List.replicate size 2) (enough : record.legs.length = size)
    (bits : String → Bool) : record.offset bits = spelled (record.legs.map bits) := by
  have fold : ∀ (legs : List String) (acc : Nat),
      (legs.zip (List.replicate legs.length 2)).foldl
          (fun acc axis => axis.2 * acc + (bits axis.1).toNat) acc =
        (legs.map bits).foldl (fun acc bit => 2 * acc + bit.toNat) acc := by
    intro legs
    induction legs with
    | nil => exact fun _ => rfl
    | cons leg rest ih => exact fun acc => ih _
  rw [offset, shape, ← enough, fold]
  rfl

/-- Whether bits of the legs lead a gate from one basis state to another: the ingoing legs have the
bits of its qubits before and the outgoing legs the bits after, both in descending order of the
qubits, and all other qubits keep their bits. -/
structure Leads (record : TensorRecord S) (g : Gate S) (bits : String → Bool)
    (before after : Nat) : Prop where
  /-- The bits before the gate. -/
  ingoing : record.ingoing.map bits = (Tape.descending g).map before.testBit
  /-- The bits after the gate. -/
  outgoing : record.outgoing.map bits = (Tape.descending g).map after.testBit
  /-- The bits of the other qubits. -/
  others : clear (Tape.descending g) before = clear (Tape.descending g) after

/-- Whether a record is the tensor of a gate on certain pieces of the wires, read backwards. -/
structure Carries [TrigScalar S] (record : TensorRecord S) (g : Gate S) (piece : Nat → Nat) :
    Prop where
  /-- The current piece of the wire of each qubit goes in. -/
  ingoing : record.ingoing = (Tape.descending g).map fun q => Tape.legName q (piece q)
  /-- The next piece of the wire of each qubit goes out. -/
  outgoing : record.outgoing = (Tape.descending g).map fun q => Tape.legName q (piece q + 1)
  /-- The entry from one state to another is the amplitude from that one back to this. -/
  reads : ∀ {bits before after}, record.Leads g bits before after →
    record.at? bits = g.amplitude? after before

end TensorRecord

namespace Tape

/-- What the dense backend builds for a gate reads backwards. -/
theorem at?_recordOf {g : Gate S} (proper : g.Proper) {diagram : Diagram S}
    {m : Matrix (Complex S)}
    (built : Backend.dense.build () (.standard (localGate g)) = ((), .ok diagram))
    (found : diagram.matrix? (roles g).keys.length = some m) (legs : Counters) (place : Nat)
    {bits : String → Bool} {before after : Nat}
    (leads : (recordOf g legs place m).Leads g bits before after) :
    (recordOf g legs place m).at? bits = g.amplitude? after before := by
  obtain ⟨_, _, _, lengthLegs, shape, _⟩ :=
    continues_recordOf Backend.sized_dense built found legs place
  rcases exists_gateMatrix? proper.1 g.params with ⟨unitary, isMatrix, _⟩
  have inside : ∀ i ∈ (localGate g).operands, i < (roles g).keys.length :=
    Operation.width_standard_le_iff.mp (width_localGate_le g)
  obtain ⟨rows, cols, entries⟩ := (build_dense_spec (proper_localGate proper) isMatrix inside).2
    diagram m (congrArg Prod.snd built) found
  have length : (descending g).length = (roles g).keys.length := List.length_reverse
  have size : ∀ state, gather (descending g) state < numStates (roles g).keys.length := fun state =>
    length ▸ gather_lt (descending g) state
  have halves : (recordOf g legs place m).legs =
      (recordOf g legs place m).ingoing ++ (recordOf g legs place m).outgoing :=
    (List.take_append_drop _ _).symm
  have place : (recordOf g legs place m).offset bits =
      m.cols * gather (descending g) before + gather (descending g) after := by
    rw [TensorRecord.offset_eq_spelled shape lengthLegs, halves, List.map_append, leads.ingoing,
      leads.outgoing, spelled_append, List.length_map, length, cols, gather_eq_spelled,
      gather_eq_spelled]
    rfl
  rw [TensorRecord.at?, place, Gate.amplitude?, isMatrix, Option.map_some,
    action_localGate proper.2, if_pos leads.others, ← entries]
  exact m.getElem?_toList (rows ▸ size before) (cols ▸ size after)

/-- The record of a gate carries it on the current pieces of the wires. -/
theorem carries_recordOf {g : Gate S} (proper : g.Proper) {diagram : Diagram S}
    {m : Matrix (Complex S)}
    (built : Backend.dense.build () (.standard (localGate g)) = ((), .ok diagram))
    (found : diagram.matrix? (roles g).keys.length = some m) (legs : Counters) (place : Nat) :
    (recordOf g legs place m).Carries g legs.get := by
  obtain ⟨_, ingoing, outgoing, _, _, _⟩ :=
    continues_recordOf Backend.sized_dense built found legs place
  exact ⟨ingoing, outgoing, at?_recordOf proper built found legs place⟩

/-- Any bits can be put on the current and on the next pieces of the wires. -/
theorem exists_bits (piece : Nat → Nat) (before after : Nat → Bool) :
    ∃ bits : String → Bool, ∀ q, bits (legName q (piece q)) = before q ∧
      bits (legName q (piece q + 1)) = after q := by
  classical
  refine ⟨fun leg => decide (∃ q, leg = legName q (piece q) ∧ before q = true ∨
    leg = legName q (piece q + 1) ∧ after q = true), fun q => ⟨?_, ?_⟩⟩
  · rw [Bool.eq_iff_iff, decide_eq_true_iff]
    constructor
    · rintro ⟨q', ⟨same, bit⟩ | ⟨same, _⟩⟩
      · rwa [(legName_injective same).1]
      · rcases legName_injective same with ⟨rfl, pieces⟩
        omega
    · exact fun bit => ⟨q, .inl ⟨rfl, bit⟩⟩
  · rw [Bool.eq_iff_iff, decide_eq_true_iff]
    constructor
    · rintro ⟨q', ⟨same, _⟩ | ⟨same, bit⟩⟩
      · rcases legName_injective same with ⟨rfl, pieces⟩
        omega
      · rwa [(legName_injective same).1]
    · exact fun bit => ⟨q, .inr ⟨rfl, bit⟩⟩

end Tape

namespace TensorRecord.Carries

variable {record : TensorRecord S} {g : Gate S} {piece : Nat → Nat}

/-- Between any two states that agree on the other qubits there are bits of the legs. -/
theorem exists_leads (carries : record.Carries g piece) {before after : Nat}
    (others : clear (Tape.descending g) before = clear (Tape.descending g) after) :
    ∃ bits, record.Leads g bits before after := by
  rcases Tape.exists_bits piece before.testBit after.testBit with ⟨bits, spells⟩
  refine ⟨bits, ?_, ?_, others⟩
  · rw [carries.ingoing, List.map_map]
    exact List.map_congr_left fun q _ => (spells q).1
  · rw [carries.outgoing, List.map_map]
    exact List.map_congr_left fun q _ => (spells q).2

/-- A record reads forwards as well exactly if its gate is symmetric. -/
theorem forwards_iff (carries : record.Carries g piece) (proper : g.Proper) :
    (∀ {bits before after}, record.Leads g bits before after →
      record.at? bits = g.amplitude? before after) ↔ g.IsSymmetric := by
  constructor
  · intro forwards before after
    by_cases others : clear (Tape.descending g) before = clear (Tape.descending g) after
    · rcases carries.exists_leads others with ⟨bits, leads⟩
      rw [← forwards leads, carries.reads leads]
    · rcases not_forall.mp (fun agree => others (clear_eq_iff.mpr agree)) with ⟨q, differ⟩
      rcases Classical.not_imp.mp differ with ⟨notListed, differ⟩
      have other : q ∉ g.operands := fun mem => notListed (Tape.mem_descending.mpr mem)
      rw [Gate.amplitude?_eq_zero proper other differ,
        Gate.amplitude?_eq_zero proper other (Ne.symm differ)]
  · intro symmetric bits before after leads
    rw [carries.reads leads, symmetric]

end TensorRecord.Carries

end QuantumCircuit
