import QuantumCircuit.Proofs.Circuit.Checked
import QuantumCircuit.Proofs.Tensor.Handed

/-!
# Exports that are carried through

The backend that builds dense matrices reads the matrix of a gate by the bits of its targets, and
the export counts the legs of qubits by their numbers; neither looks whether these are there.  They
are, if each gate has the number of targets of its kind and its qubits are in range, whether or not
they coincide.  This is checked where operations come in, and later steps keep it.  So all that can
break an export off is a gate whose matrix is too large to be addressed, and all that can make it
fail is an operation that has no tensor.
-/

namespace QuantumCircuit

open Operation

/-! ## The leaves that have tensors -/

namespace Operation

variable {S : Type}

/-- The gate that an operation is, if its parameters are numbers and it is no barrier. -/
def gate? : Operation S → Option (Gate S)
  | .standard g => if g.kind = .barrier then none else some g
  | _ => none

/-- Whether an operation is a symbolic gate, a reset, or under a condition. -/
def lacksTensor : Operation S → Bool
  | .symbolic _ => true
  | .nonUnitary e => e.kind = .reset
  | .conditioned _ _ => true
  | _ => false

theorem gate?_eq_some_iff {op : Operation S} {g : Gate S} :
    op.gate? = some g ↔ op = .standard g ∧ g.kind ≠ .barrier := by
  cases op with
  | standard h =>
      rw [gate?, Option.ite_none_left_eq_some, Option.some_inj, standard.injEq, and_comm]
      exact and_congr_right fun same => by rw [same]
  | _ => simp [gate?]

mutual

/-- The gates of an operation are those among its leaves. -/
theorem leafGates_eq : ∀ op : Operation S, op.leafGates = op.leaves.filterMap gate?
  | .standard g => by
      rw [leafGates, leaves, List.filterMap_cons, List.filterMap_nil, gate?]
      split <;> rfl
  | .symbolic _ => rfl
  | .nonUnitary _ => rfl
  | .conditioned _ _ => rfl
  | .compound ops => leafGatesAll_eq ops

theorem leafGatesAll_eq : ∀ ops : List (Operation S),
    leafGatesAll ops = (leavesAll ops).filterMap gate?
  | [] => rfl
  | op :: ops => by
      rw [leafGatesAll, leavesAll, List.filterMap_append, leafGates_eq op, leafGatesAll_eq ops]

end

mutual

/-- An operation can be exported if its leaves can. -/
theorem isExportable_eq : ∀ op : Operation S, op.isExportable = op.leaves.all isExportable
  | .standard _ => rfl
  | .symbolic _ => rfl
  | .nonUnitary _ => (Bool.and_true _).symm
  | .conditioned _ _ => rfl
  | .compound ops => allExportable_eq ops

theorem allExportable_eq : ∀ ops : List (Operation S),
    allExportable ops = (leavesAll ops).all isExportable
  | [] => rfl
  | op :: ops => by
      rw [allExportable, leavesAll, List.all_append, isExportable_eq op, allExportable_eq ops]

end

mutual

/-- The export of an operation comes to gates of it only. -/
theorem reachedGates_sublist : ∀ op : Operation S, op.reachedGates.Sublist op.leafGates
  | .standard _ => .refl _
  | .symbolic _ => .refl _
  | .nonUnitary _ => .refl _
  | .conditioned _ _ => .refl _
  | .compound ops => reachedGatesAll_sublist ops

theorem reachedGatesAll_sublist : ∀ ops : List (Operation S),
    (reachedGatesAll ops).Sublist (leafGatesAll ops)
  | [] => .refl _
  | op :: ops => by
      rw [reachedGatesAll, leafGatesAll]
      refine (reachedGates_sublist op).append ?_
      split
      · exact reachedGatesAll_sublist ops
      · exact List.nil_sublist _

end

end Operation

/-! ## Gates whose matrices can be addressed -/

namespace Gate

variable {P : Type}

/-- Whether the size of the matrix over the qubits of a gate fits a machine word: sixteen bytes for
each entry, counted by a signed word of 64 bits. -/
def FitsWord (g : Gate P) : Prop :=
  16 * (numStates g.numQubits * numStates g.numQubits) < 2 ^ 63

instance (g : Gate P) : Decidable g.FitsWord :=
  inferInstanceAs (Decidable (_ < _))

theorem fitsWord_iff {g : Gate P} : g.FitsWord ↔ g.numQubits ≤ maxMatrixQubits := by
  have bytes : 16 * (numStates g.numQubits * numStates g.numQubits) =
      2 ^ (4 + 2 * g.numQubits) := by
    change 2 ^ 4 * (2 ^ g.numQubits * 2 ^ g.numQubits) = _
    rw [← Nat.pow_add, ← Nat.pow_add, Nat.two_mul]
  rw [FitsWord, bytes, Nat.pow_lt_pow_iff_right Nat.one_lt_two, maxMatrixQubits]
  omega

/-- Whether a gate has as many targets as its kind, and each of its qubits is below a width. -/
def Wired (width : Nat) (g : Gate P) : Prop :=
  g.kind.targetCount? = some g.targets.length ∧ ∀ q ∈ g.operands, q < width

end Gate

/-! ## Runs of the dense backend -/

section Runs

variable {S : Type} [TrigScalar S]

/-- The backend answers the matrix of an operator over no more than the qubits of the gate, if that
operator can be stored. -/
theorem Backend.exists_answer_dense {g : Gate S}
    (arity : g.kind.targetCount? = some g.targets.length) :
    ∃ d : DenseOperator S, d.numQubits ≤ g.numQubits ∧
      (Backend.dense.answer () g).2 =
        if d.numQubits ≤ maxMatrixQubits then orFault (d.matrix? g.numQubits)
        else .error .fault := by
  have localArity : (Tape.localGate g).kind.targetCount? =
      some (Tape.localGate g).targets.length :=
    arity.trans (congrArg some (List.length_map _).symm)
  rcases exists_build localArity with ⟨unitary, _, built⟩
  have answer : (Backend.dense.answer () g).2 =
      (Backend.dense.build () (.standard (Tape.localGate g))).2.bind fun d =>
        orFault (d.matrix? g.numQubits) := by
    rw [← Tape.length_keys_eq]
    rfl
  refine ⟨.ofGate unitary (Tape.localGate g), ?_, ?_⟩
  · rw [← Tape.length_keys_eq]
    exact Tape.width_localGate_le g
  · rw [answer, built]
    change _ = if (Operation.standard (Tape.localGate g)).width ≤ maxMatrixQubits then _ else _
    split <;> rfl

/-- The backend answers a matrix for every gate with as many targets as its kind, as long as the
matrix can be addressed. -/
theorem Backend.answer_dense {g : Gate S} (arity : g.kind.targetCount? = some g.targets.length) :
    (g.FitsWord → ∃ m, (Backend.dense.answer () g).2 = .ok m) ∧
      (¬ g.FitsWord → (Backend.dense.answer () g).2 = .error .fault) := by
  rcases exists_answer_dense arity with ⟨d, width, answer⟩
  rw [answer, Gate.fitsWord_iff]
  constructor
  · intro fits
    have stored : (d.matrix? g.numQubits).isSome = true :=
      DenseOperator.isSome_matrix?_iff.mpr (.inr fits)
    rcases Option.isSome_iff_exists.mp stored with ⟨m, found⟩
    rw [if_pos (Nat.le_trans width fits), found]
    exact ⟨m, rfl⟩
  · intro large
    split
    · next small =>
        have missing : d.matrix? g.numQubits = none := by
          rw [← Option.not_isSome_iff_eq_none, DenseOperator.isSome_matrix?_iff, not_or]
          exact ⟨fun narrow => large (Nat.le_trans narrow small), large⟩
        rw [missing]
        rfl
    · rfl

namespace Tape

omit [TrigScalar S] in
/-- Where its qubits have legs, a gate is written if the backend answers a matrix. -/
theorem writeGate_result {σ : Type} (b : Backend S σ) {g : Gate S} {t : Tape S σ}
    (below : ∀ q ∈ g.operands, q < t.legs.width) :
    (writeGate b g t).2 = (b.answer t.backend g).2.map fun _ => () := by
  rcases writeGate_cases b g t with ⟨⟨q, operand, beyond⟩, _⟩ |
    ⟨_, backend, e, answer, step⟩ | ⟨_, backend, m, answer, step⟩
  · exact absurd (below q operand) (Nat.not_lt.mpr beyond)
  · rw [step, answer]
    rfl
  · rw [step, answer]
    rfl

variable {t : Tape S Unit}

/-- A gate is written if its matrix can be addressed, and otherwise the export breaks off. -/
theorem writeGate_dense {g : Gate S} (wired : g.Wired t.legs.width) :
    (writeGate .dense g t).2 = if g.FitsWord then .ok () else .error .fault := by
  obtain ⟨fits, large⟩ := Backend.answer_dense wired.1
  rw [writeGate_result .dense wired.2]
  by_cases word : g.FitsWord
  · rcases fits word with ⟨m, answer⟩
    rw [if_pos word, answer]
    rfl
  · rw [if_neg word, large word]
    rfl

/-- A list of gates is written if all their matrices can be addressed, and otherwise the export
breaks off. -/
theorem writeGates_dense_wired {gates : List (Gate S)}
    (wired : ∀ g ∈ gates, g.Wired t.legs.width) :
    (writeGates .dense t gates).2 =
      if ∀ g ∈ gates, g.FitsWord then .ok () else .error .fault := by
  induction gates generalizing t with
  | nil => rw [if_pos (List.forall_mem_nil _), writeGates]
  | cons g gates ih =>
      obtain ⟨head, tail⟩ := List.forall_mem_cons.mp wired
      have result := writeGate_dense head
      have width := width_legs_writeGate .dense g t
      rw [writeGates]
      by_cases word : g.FitsWord
      · rw [if_pos word] at result
        rcases step : writeGate .dense g t with ⟨next, answer⟩
        rw [step] at result width
        obtain rfl : answer = .ok () := result
        rw [ih (width.symm ▸ tail)]
        simp only [List.forall_mem_cons, word, true_and]
      · rw [if_neg word] at result
        rcases step : writeGate .dense g t with ⟨next, answer⟩
        rw [step] at result
        obtain rfl : answer = .error .fault := result
        rw [if_neg fun all => word (all g List.mem_cons_self)]

/-! ## Operations -/

section Operations

variable {S σ : Type} (b : Backend S σ)

mutual

/-- The export of an operation breaks off only where a gate that it comes to breaks it off. -/
theorem fault_of_write : ∀ {op : Operation S} {t : Tape S σ},
    (write b t op).2 = .error .fault → (writeGates b t op.reachedGates).2 = .error .fault
  | .standard g, t, broken => by
      rw [write] at broken
      rw [reachedGates]
      split at broken
      · contradiction
      · next gate =>
          rw [if_neg gate, writeGates]
          rcases step : writeGate b g t with ⟨next, _ | _⟩
          · rw [step] at broken
            exact broken
          · rw [step] at broken
            contradiction
  | .symbolic _, _, broken => by cases broken
  | .nonUnitary e, _, broken => by
      rw [write] at broken
      split at broken <;> cases broken
  | .conditioned _ _, _, broken => by cases broken
  | .compound _, _, broken => fault_of_writeAll broken

theorem fault_of_writeAll : ∀ {ops : List (Operation S)} {t : Tape S σ},
    (writeAll b t ops).2 = .error .fault →
      (writeGates b t (reachedGatesAll ops)).2 = .error .fault
  | [], _, broken => by cases broken
  | op :: ops, t, broken => by
      obtain ⟨tape, failed, done⟩ := write_reachedGates b op t
      rw [writeAll] at broken
      rw [reachedGatesAll, writeGates_append]
      rcases first : write b t op with ⟨next, e | _⟩
      · rw [first] at broken
        have own : (write b t op).2 = .error .fault := by
          rw [first]
          exact broken
        have gates := fault_of_write own
        rcases run : writeGates b t op.reachedGates with ⟨last, e' | _⟩
        · rw [run] at gates
          exact gates
        · rw [run] at gates
          contradiction
      · rw [first] at broken tape failed done
        rcases gates : writeGates b t op.reachedGates with ⟨last, e | _⟩
        · rw [gates] at failed
          cases failed rfl
        · rw [gates] at tape done
          obtain rfl : next = last := tape
          rw [(done rfl).mp rfl]
          exact fault_of_writeAll broken

end

variable {b} in
/-- What is written without failing has counted the gates. -/
theorem ordinal_of_writeAll (sized : b.Sized) {ops : List (Operation S)} {t : Tape S σ}
    (success : (writeAll b t ops).2 = .ok ()) :
    (writeAll b t ops).1.ordinal = t.ordinal + (leafGatesAll ops).length := by
  have exportable := allExportable_of_writeAll success
  rw [writeAll_eq_writeGates b exportable] at success ⊢
  rcases writeGates_continues sized success with ⟨_, _, ordinal, _⟩
  exact ordinal

end Operations

/-- An export of operations whose gates have legs and targets breaks off exactly if it comes to a
gate whose matrix cannot be addressed, and it is done exactly if there is none and all operations
have tensors or need none. -/
theorem writeAll_dense {ops : List (Operation S)}
    (wired : ∀ g ∈ reachedGatesAll ops, g.Wired t.legs.width) :
    ((writeAll .dense t ops).2 = .error .fault ↔ ∃ g ∈ reachedGatesAll ops, ¬ g.FitsWord) ∧
      ((writeAll .dense t ops).2 = .ok () ↔
        allExportable ops = true ∧ ∀ g ∈ reachedGatesAll ops, g.FitsWord) := by
  obtain ⟨_, failed, done⟩ := writeAll_reachedGates .dense ops t
  have gates := writeGates_dense_wired wired
  by_cases words : ∀ g ∈ reachedGatesAll ops, g.FitsWord
  · rw [if_pos words] at gates
    constructor
    · constructor
      · intro broken
        cases gates.symm.trans (fault_of_writeAll .dense broken)
      · rintro ⟨g, mem, large⟩
        exact absurd (words g mem) large
    · rw [done gates, and_iff_left words]
  · rw [if_neg words] at gates
    have broken := failed gates
    constructor
    · refine ⟨fun _ => ?_, fun _ => broken⟩
      push Not at words
      exact words
    · rw [broken]
      exact ⟨(nomatch ·), fun both => absurd both.2 words⟩

end Tape

end Runs

/-! ## Networks -/

namespace Network

variable {S : Type} [TrigScalar S] {c : Circuit S}

omit [TrigScalar S] in
/-- The gates of a circuit whose leaves pass the checks have legs and targets. -/
theorem wired_of_checked (checked : c.Checked) {g : Gate S} (mem : g ∈ leafGatesAll c.ops) :
    g.Wired (width c) := by
  rw [leafGatesAll_eq, List.mem_filterMap] at mem
  rcases mem with ⟨leaf, isLeaf, isGate⟩
  obtain ⟨rfl, notBarrier⟩ := gate?_eq_some_iff.mp isGate
  have admits := checked.admits _ isLeaf
  refine ⟨?_, fun q operand =>
    Nat.lt_of_lt_of_le (admits.occurrences_lt q operand) (Nat.le_max_right _ _)⟩
  cases admits with
  | gate arity => exact (Circuit.arityError?_eq_none_iff.mp arity).1
  | barrier isBarrier => exact absurd isBarrier notBarrier

omit [TrigScalar S] in
/-- Operations whose leaves pass the checks can be exported exactly if no leaf lacks a tensor. -/
theorem allExportable_iff_of_checked (checked : c.Checked) :
    allExportable c.ops = true ↔ ∀ leaf ∈ leavesAll c.ops, leaf.lacksTensor = false := by
  rw [allExportable_eq, List.all_eq_true]
  refine forall₂_congr fun leaf mem => ?_
  cases checked.admits leaf mem with
  | measure kind => simp [isExportable, lacksTensor, kind]
  | reset kind => simp [isExportable, lacksTensor, kind]
  | _ => simp [isExportable, lacksTensor]

/-- A circuit is built by adding registers, by removing idle qubits and closing up, by emissions,
and by appending blocks whose leaves pass the checks of emissions at that moment.  If the matrices
of all its gates can be addressed, its export with dense matrices never breaks off, it is done
exactly if no leaf is a symbolic gate, a reset or under a condition, and then it counts the leaves
that are gates.  Nothing less would do: the export breaks off exactly if it comes to a gate whose
matrix cannot be addressed. -/
theorem write_dense_completes (built : Circuit.Reachable Step.Checks c) :
    ((∀ g ∈ leafGatesAll c.ops, g.FitsWord) →
      (write .dense () c).2 ≠ .error .fault ∧
      ((write .dense () c).2 = .ok () ↔ ∀ leaf ∈ leavesAll c.ops, leaf.lacksTensor = false) ∧
      ((write .dense () c).2 = .ok () →
        (write .dense () c).1.ordinal = (leavesAll c.ops).countP fun leaf => leaf.gate?.isSome)) ∧
    ((write .dense () c).2 = .error .fault ↔ ∃ g ∈ reachedGatesAll c.ops, ¬ g.FitsWord) := by
  have checked := built.checked
  have reached := (reachedGatesAll_sublist c.ops).subset
  obtain ⟨breaks_iff, done_iff⟩ := Tape.writeAll_dense (t := ⟨.zero (width c), 0, (), []⟩)
    fun g mem => wired_of_checked checked (reached mem)
  refine ⟨fun words => ⟨fun broken => ?_, ?_, fun success => ?_⟩, breaks_iff⟩
  · obtain ⟨g, mem, large⟩ := breaks_iff.mp broken
    exact large (words g (reached mem))
  · rw [← allExportable_iff_of_checked checked]
    exact done_iff.trans (and_iff_left fun g mem => words g (reached mem))
  · have counted := Tape.ordinal_of_writeAll Backend.sized_dense success
    rw [Nat.zero_add, leafGatesAll_eq, List.length_filterMap_eq_countP] at counted
    exact counted

/-- A controlled gate on the outer two of three qubits, and a block of a gate whose control is its
target, a measurement, and a block of a barrier and a gate whose targets coincide.  The qubit in
between is removed. -/
theorem write_dense_completes_stripped :
    let new : Circuit Float :=
      ((Circuit.blank Config.default).insertQubits 3 "q").insertClbits 1 "c"
    let emission : Emission Float := .gate .x [] (.ofList [⟨0, .positive⟩]) [2]
    let block : List (Operation Float) :=
      [.standard ⟨.x, .ofList [⟨0, .negative⟩], [0], []⟩, .nonUnitary (.ofMeasure [2] [0]),
        .compound [.standard ⟨.barrier, .empty, [0, 2], []⟩, .standard ⟨.dcx, .empty, [2, 2], []⟩]]
    let filled := (emission.run new).circuit.push (.compound block)
    let c := (filled.stripIdle true true).circuit
    Circuit.Reachable Step.Checks c ∧ c.numTotalQubits = 2 ∧
      (∀ g ∈ leafGatesAll c.ops, g.FitsWord) ∧ (write .dense () c).2 = .ok () ∧
      (write .dense () c).1.ordinal = 3 := by
  intro new emission block filled c
  have built : Circuit.ofConfig? { Config.default with numQubits := 3, numClbits := 1 } =
    some new := rfl
  have passed : ∀ leaf ∈ leavesAll block, (emission.run new).circuit.Admits leaf := by
    simp only [block, leavesAll, leaves, List.singleton_append, List.append_nil,
      List.forall_mem_cons]
    exact ⟨.gate rfl rfl, .measure rfl rfl rfl rfl, .barrier rfl rfl, .gate rfl rfl,
      List.forall_mem_nil _⟩
  have start : Circuit.Reachable Step.Checks new := .start built
  have first := start.step (s := .program (emission.run new).circuit.ops .empty Scalar.zero)
    (.inl ⟨emission, rfl⟩)
  have second := first.step (s := .program filled.ops .empty Scalar.zero)
    (.inr ⟨block, passed, rfl⟩)
  have third : Circuit.Reachable Step.Checks c := second.step (s := .stripIdle true true) rfl
  have words : ∀ g ∈ leafGatesAll c.ops, g.FitsWord := by decide +kernel
  obtain ⟨_, done_iff, counts⟩ := (write_dense_completes third).1 words
  have success := done_iff.mpr (by decide +kernel)
  refine ⟨third, by decide +kernel, words, success, ?_⟩
  rw [counts success]
  decide +kernel

end Network

end QuantumCircuit
