import QuantumCircuit.Proofs.Tensor.Wires

/-!
# What an export that stops has counted

An export stops at the first operation that fails.  The place of the next record and the legs have
advanced by the records that were written until then, with one exception: the legs of a gate are
counted before the backend is asked, so if it refuses the gate, they have advanced by one gate more
than there are records.
-/

namespace QuantumCircuit

/-! ## Qubits of records -/

namespace Tape

/-- Whether a leg is a piece of the wire of a qubit. -/
def isPieceOf (q : Nat) (leg : String) : Bool :=
  ("q" ++ toString q ++ "_").toList.isPrefixOf leg.toList

@[simp]
theorem isPieceOf_legName (q q' k : Nat) : isPieceOf q (legName q' k) = decide (q = q') := by
  have wire : ∀ q, ("q" ++ toString q ++ "_").toList = 'q' :: (Nat.toDigits 10 q ++ ['_']) := by
    intro q
    simp only [String.toList_append, Nat.toString_eq_ofList_toDigits, String.toList_ofList]
    rfl
  have piece : (legName q' k).toList = 'q' :: (Nat.toDigits 10 q' ++ '_' :: Nat.toDigits 10 k) := by
    rw [legName, String.toList_append, wire, Nat.toString_eq_ofList_toDigits, String.toList_ofList,
      List.cons_append, List.append_assoc]
    rfl
  rw [Bool.eq_iff_iff, isPieceOf, List.isPrefixOf_iff_prefix, decide_eq_true_iff, wire, piece,
    List.cons_prefix_cons, and_iff_right rfl]
  constructor
  · rintro ⟨rest, same⟩
    rw [List.append_assoc] at same
    exact (digits_append_inj rfl same).1
  · rintro rfl
    exact ⟨Nat.toDigits 10 k, List.append_assoc _ _ _⟩

end Tape

/-- Whether a record touches a qubit: one of its legs is a piece of the qubit's wire. -/
def TensorRecord.touches {S : Type} (record : TensorRecord S) (q : Nat) : Bool :=
  record.legs.any (Tape.isPieceOf q)

/-- The record of a gate touches the qubits of the gate. -/
theorem Tape.touches_recordOf {S : Type} (g : Gate S) (legs : Counters) (place : Nat)
    (m : Matrix (Complex S)) (q : Nat) :
    (recordOf g legs place m).touches q = decide (q ∈ g.operands) := by
  have half : ∀ later, (legNames legs later (descending g)).any (isPieceOf q) =
      decide (q ∈ g.operands) := by
    intro later
    rw [Bool.eq_iff_iff, legNames, List.any_map, List.any_eq_true, decide_eq_true_iff]
    simp only [Function.comp_apply, isPieceOf_legName, decide_eq_true_iff, mem_descending,
      exists_eq_right']
  rw [TensorRecord.touches, recordOf, List.any_append, half, half, Bool.or_self]

/-! ## Gates that an export comes to -/

namespace Operation

variable {S : Type}

mutual

/-- The gates of an operation in program order, without barriers, up to the first operation that has
no tensor. -/
def reachedGates : Operation S → List (Gate S)
  | .standard g => if g.kind = .barrier then [] else [g]
  | .symbolic _ => []
  | .nonUnitary _ => []
  | .conditioned _ _ => []
  | .compound ops => reachedGatesAll ops
termination_by structural op => op

/-- The gates of a list of operations in program order, without barriers, up to the first operation
that has no tensor. -/
def reachedGatesAll : List (Operation S) → List (Gate S)
  | [] => []
  | op :: ops => op.reachedGates ++ if op.isExportable then reachedGatesAll ops else []
termination_by structural ops => ops

end

end Operation

namespace Tape

open Operation

variable {S σ : Type} (b : Backend S σ)

/-- Whether an export is that of some gates, and may still fail after them. -/
structure WritesGates (outcome gates : Tape S σ × TensorResult Unit) (complete : Bool) : Prop where
  /-- The gates leave the tape. -/
  tape : outcome.1 = gates.1
  /-- If the gates fail, the export fails alike. -/
  failed : ∀ {e}, gates.2 = .error e → outcome.2 = .error e
  /-- If the gates are written, the export is done unless there is more to it. -/
  done : gates.2 = .ok () → (outcome.2 = .ok () ↔ complete = true)

mutual

/-- The export of an operation is that of the gates that it comes to. -/
theorem write_reachedGates : ∀ (op : Operation S) (t : Tape S σ),
    WritesGates (write b t op) (writeGates b t op.reachedGates) op.isExportable
  | .standard g, t => by
      rw [write, reachedGates]
      split
      · exact ⟨rfl, (nomatch ·), fun _ => by simp [isExportable]⟩
      · rw [writeGates]
        rcases writeGate b g t with ⟨next, _ | _⟩
        · exact ⟨rfl, id, (nomatch ·)⟩
        · exact ⟨rfl, id, fun _ => by simp [isExportable]⟩
  | .symbolic _, _ => ⟨rfl, (nomatch ·), fun _ => by simp [write, isExportable]⟩
  | .nonUnitary e, t => by
      rw [write]
      split
      · next measured =>
          exact ⟨rfl, (nomatch ·), fun _ => by simp [isExportable, measured]⟩
      · next other =>
          exact ⟨rfl, (nomatch ·), fun _ => by simp [isExportable, other]⟩
  | .conditioned _ _, _ =>
      ⟨rfl, (nomatch ·), fun _ => by simp [write, isExportable]⟩
  | .compound ops, t => writeAll_reachedGates ops t

/-- The export of a list of operations is that of the gates that it comes to. -/
theorem writeAll_reachedGates : ∀ (ops : List (Operation S)) (t : Tape S σ),
    WritesGates (writeAll b t ops) (writeGates b t (reachedGatesAll ops)) (allExportable ops)
  | [], _ => ⟨rfl, (nomatch ·), fun _ => by simp [writeAll, allExportable]⟩
  | op :: ops, t => by
      obtain ⟨tape, failed, done⟩ := write_reachedGates op t
      rw [writeAll, reachedGatesAll, writeGates_append, allExportable]
      rcases first : write b t op with ⟨next, result⟩
      rcases gates : writeGates b t op.reachedGates with ⟨next', e | _⟩
      · simp only [first, gates] at tape failed
        obtain rfl := tape
        rw [failed rfl]
        exact ⟨rfl, id, (nomatch ·)⟩
      · simp only [first, gates] at tape done
        obtain rfl := tape
        cases result with
        | ok =>
            rw [(done trivial).mp rfl, Bool.true_and]
            exact writeAll_reachedGates ops next
        | error e =>
            have unsupported : op.isExportable = false := by simpa using done
            rw [unsupported]
            exact ⟨rfl, (nomatch ·), fun _ => by simp⟩

end

end Tape

namespace Tape

variable {S σ : Type} (b : Backend S σ)

/-! ## What a run adds -/

/-- The gate at which a run stops because the backend refuses it, if that is why the run stops. -/
def refused? (t : Tape S σ) : List (Gate S) → Option (Gate S)
  | [] => none
  | g :: gates =>
      match writeGate b g t with
      | (t, .ok ()) => refused? t gates
      | (_, .error _) => if ∀ q ∈ g.operands, q < t.legs.width then some g else none

/-- The number of records that touch a qubit. -/
def countTouching (records : List (Nat × TensorRecord S)) (q : Nat) : Nat :=
  records.countP fun e => e.2.touches q

/-- Whether a tape has come from another by writing some records and then, if a gate was refused,
counting the legs of this gate. -/
structure AdvancedBy (t next : Tape S σ) (added : List (Nat × TensorRecord S))
    (refused : Option (Gate S)) : Prop where
  /-- These records have been added. -/
  written : next.written = t.written ++ added
  /-- The place of the next record has advanced by them. -/
  ordinal : next.ordinal = t.ordinal + added.length
  /-- The legs have advanced by those records that touch the qubit, and by the refused gate. -/
  legs : ∀ q, next.legs.get q = t.legs.get q + countTouching added q +
    if q ∈ (refused.map Gate.operands).getD [] then 1 else 0

/-- A run of gates has written some of them, and has counted the legs of one more if it stops
because the backend refuses it. -/
theorem exists_advancedBy (gates : List (Gate S)) (t : Tape S σ) :
    ∃ added, AdvancedBy t (writeGates b t gates).1 added (refused? b t gates) := by
  induction gates generalizing t with
  | nil => exact ⟨[], (List.append_nil _).symm, rfl, fun _ => rfl⟩
  | cons g gates ih =>
      rw [writeGates, refused?]
      rcases writeGate_cases b g t with ⟨⟨q, operand, beyond⟩, e, step⟩ |
        ⟨below, backend, e, _, step⟩ | ⟨below, backend, m, _, step⟩
      · have unfit : ¬ ∀ q ∈ g.operands, q < t.legs.width := fun below =>
          Nat.not_lt.mpr beyond (below q operand)
        simp only [step, if_neg unfit]
        exact ⟨[], (List.append_nil _).symm, rfl, fun _ => rfl⟩
      · simp only [step, if_pos below]
        exact ⟨[], (List.append_nil _).symm, rfl, get_advance_roles below⟩
      · simp only [step]
        obtain ⟨added, written, ordinal, legs⟩ := ih ⟨advance t.legs (roles g).keys,
          t.ordinal + 1, backend, t.written ++ [(t.ordinal, recordOf g t.legs t.ordinal m)]⟩
        refine ⟨(t.ordinal, recordOf g t.legs t.ordinal m) :: added, ?_, ?_, fun q => ?_⟩
        · rw [written, List.append_assoc]
          rfl
        · rw [ordinal, List.length_cons, Nat.add_comm added.length, Nat.add_assoc]
        · rw [legs, get_advance_roles below, countTouching, countTouching, List.countP_cons,
            touches_recordOf]
          simp only [decide_eq_true_eq]
          omega

/-- A gate that is refused ends the run with the error that the backend answers. -/
theorem answer_of_refused? {gates : List (Gate S)} {t : Tape S σ} {g : Gate S}
    (refused : refused? b t gates = some g) : ∃ state e,
      b.answer state g = ((writeGates b t gates).1.backend, .error e) ∧
      (writeGates b t gates).2 = .error e := by
  induction gates generalizing t with
  | nil => contradiction
  | cons head gates ih =>
      rw [refused?] at refused
      rw [writeGates]
      rcases writeGate_cases b head t with ⟨⟨q, operand, beyond⟩, e, step⟩ |
        ⟨below, backend, e, answer, step⟩ | ⟨below, backend, m, _, step⟩
      · have unfit : ¬ ∀ q ∈ head.operands, q < t.legs.width := fun below =>
          Nat.not_lt.mpr beyond (below q operand)
        simp only [step, if_neg unfit] at refused
        contradiction
      · simp only [step, if_pos below] at refused ⊢
        obtain rfl := Option.some.inj refused
        exact ⟨t.backend, e, answer, rfl⟩
      · simp only [step] at refused ⊢
        exact ih refused

/-- The qubits of the gate at which the export of an operation stops because the backend refuses
it; none if it does not stop so. -/
def refusedQubits (t : Tape S σ) (op : Operation S) : List Nat :=
  ((refused? b t op.reachedGates).map Gate.operands).getD []

/-- Whether it is done or fails, the export of an operation has added some records, and the place of
the next record has advanced by these.  The leg of a qubit has advanced by those records that touch
the qubit, and by one more if the export stops because the backend refuses a gate on it.  So the
legs have advanced by the records exactly if the backend does not stop the export, or stops it at a
gate without qubits. -/
theorem write_advances_iff (t : Tape S σ) (op : Operation S) :
    ∃ added : List (Nat × TensorRecord S),
      (write b t op).1.written = t.written ++ added ∧
      (write b t op).1.ordinal = t.ordinal + added.length ∧
      (∀ q, (write b t op).1.legs.get q = t.legs.get q + countTouching added q +
        if q ∈ refusedQubits b t op then 1 else 0) ∧
      ((∀ q, (write b t op).1.legs.get q = t.legs.get q + countTouching added q) ↔
        refusedQubits b t op = []) ∧
      (refusedQubits b t op ≠ [] → ∃ g state e, refusedQubits b t op = g.operands ∧
        b.answer state g = ((write b t op).1.backend, .error e) ∧
        (write b t op).2 = .error e) := by
  obtain ⟨tape, failed, _⟩ := write_reachedGates b op t
  obtain ⟨added, written, ordinal, legs⟩ := exists_advancedBy b op.reachedGates t
  have counted : ∀ q, (write b t op).1.legs.get q = t.legs.get q + countTouching added q +
      if q ∈ refusedQubits b t op then 1 else 0 := by
    rw [tape]
    exact legs
  refine ⟨added, by rw [tape, written], by rw [tape, ordinal], counted, ?_, fun stopped => ?_⟩
  · rw [List.eq_nil_iff_forall_not_mem]
    refine forall_congr' fun q => ?_
    rw [counted q]
    split <;> simp_all
  · cases refusal : refused? b t op.reachedGates with
    | none => simp [refusedQubits, refusal] at stopped
    | some g =>
        rcases answer_of_refused? b refusal with ⟨state, e, answer, refused⟩
        exact ⟨g, state, e, by rw [refusedQubits, refusal]; rfl, by rw [tape, answer],
          failed refused⟩

/-- A backend that refuses its first gate: there is no record, and the leg of the gate's qubit has
advanced. -/
theorem not_write_advances_refused :
    let x : Operation Float := .standard ⟨.x, .empty, [0], []⟩
    let t : Tape Float (List (Operation Float)) := ⟨.ofList [0], 0, [], []⟩
    let outcome := write (.recorder (some 0)) t x
    outcome.2 = .error (.refused (.backend "refused x")) ∧
      outcome.1.written = [] ∧ outcome.1.ordinal = 0 ∧
      t.legs.toList = [0] ∧ outcome.1.legs.toList = [1] ∧
      ¬ ∀ q, outcome.1.legs.get q = t.legs.get q + countTouching outcome.1.written q := by
  refine ⟨rfl, rfl, rfl, rfl, rfl, fun advanced => ?_⟩
  exact absurd (advanced 0) (by decide)

end Tape

end QuantumCircuit
