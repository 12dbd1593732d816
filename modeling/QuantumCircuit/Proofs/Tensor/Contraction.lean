import QuantumCircuit.Proofs.Tensor.Advance
import QuantumCircuit.Proofs.Tensor.Axes
import QuantumCircuit.Proofs.Tensor.Inverse
import QuantumCircuit.Proofs.Tensor.LegSums

/-!
# Contracting a network

Contracting a network sums the product of its records over the bits of all legs that two records
share.  Each record reads the amplitudes of its gate backwards, and the legs tell which record comes
after which.  So the contraction composes the gates in program order, but each of them is transposed
in the process.
-/

/-- A matrix over the states of a number of qubits. -/
abbrev StateMatrix (numQubits : Nat) (R : Type) : Type :=
  Matrix (Fin (2 ^ numQubits)) (Fin (2 ^ numQubits)) R

namespace QuantumCircuit

variable {S R : Type}

/-! ## Operators -/

namespace Gate

variable [TrigScalar S]

/-- The matrix of a gate over a number of qubits, in numbers of another kind. -/
def operatorIn [Zero R] (v : Complex S → R) (n : Nat) (g : Gate S) : StateMatrix n R :=
  Matrix.of fun after before => (g.amplitude? before after).elim 0 v

variable [Semiring R] {v : Complex S → R} {n : Nat}

omit [Semiring R] in
theorem IsSymmetric.transpose_operatorIn [Zero R] {g : Gate S} (symmetric : g.IsSymmetric)
    (v : Complex S → R) (n : Nat) : (g.operatorIn v n).transpose = g.operatorIn v n := by
  ext i j
  change (g.amplitude? i j).elim 0 v = (g.amplitude? j i).elim 0 v
  rw [symmetric]

/-- Qubits that a gate does not touch keep their bits. -/
theorem operatorIn_eq_zero (vanishes : v .zero = 0) {g : Gate S} (proper : g.Proper)
    {i j : Fin (2 ^ n)} {q : Nat} (other : q ∉ g.operands)
    (differ : i.val.testBit q ≠ j.val.testBit q) : g.operatorIn v n i j = 0 := by
  change (g.amplitude? j i).elim 0 v = 0
  rw [amplitude?_eq_zero proper other differ.symm]
  exact vanishes

/-- Qubits that no gate touches keep their bits. -/
theorem prod_operatorIn_eq_zero (vanishes : v .zero = 0) {gates : List (Gate S)}
    (proper : ∀ g ∈ gates, g.Proper) {i j : Fin (2 ^ n)} {q : Nat}
    (other : ∀ g ∈ gates, q ∉ g.operands) (differ : i.val.testBit q ≠ j.val.testBit q) :
    (gates.map (operatorIn v n)).prod i j = 0 := by
  induction gates generalizing i with
  | nil =>
      have different : i ≠ j := by
        rintro rfl
        exact differ rfl
      exact Matrix.one_apply_ne different
  | cons g gates ih =>
      rcases List.forall_mem_cons.mp proper with ⟨properHead, properTail⟩
      rcases List.forall_mem_cons.mp other with ⟨otherHead, otherTail⟩
      rw [List.map_cons, List.prod_cons, Matrix.mul_apply]
      apply Finset.sum_eq_zero
      intro k _
      by_cases same : i.val.testBit q = k.val.testBit q
      · rw [ih properTail otherTail (same ▸ differ), mul_zero]
      · rw [operatorIn_eq_zero vanishes properHead otherHead same, zero_mul]

end Gate

/-! ## Records that carry gates -/

/-- The pieces that the wires have come to after a gate. -/
def Gate.nextPiece {P : Type} (g : Gate P) (piece : Nat → Nat) (q : Nat) : Nat :=
  piece q + if q ∈ g.operands then 1 else 0

/-- The pieces that the wires have come to after some gates. -/
def Gate.lastPiece {P : Type} (gates : List (Gate P)) (piece : Nat → Nat) (q : Nat) : Nat :=
  piece q + Gate.visits gates q

theorem Gate.lastPiece_cons {P : Type} (g : Gate P) (gates : List (Gate P)) (piece : Nat → Nat) :
    lastPiece (g :: gates) piece = lastPiece gates (g.nextPiece piece) := by
  funext q
  rw [lastPiece, lastPiece, nextPiece, visits_cons, Nat.add_assoc,
    Nat.add_comm (Gate.visits gates q)]

/-- The qubits of a gate that later gates touch as well. -/
def Gate.joined (g : Gate S) (later : List (Gate S)) : List Nat :=
  (Tape.descending g).filter fun q => 0 < Gate.visits later q

theorem Gate.mem_joined {g : Gate S} {later : List (Gate S)} {q : Nat} :
    q ∈ g.joined later ↔ q ∈ g.operands ∧ 0 < Gate.visits later q := by
  rw [joined, List.mem_filter, Tape.mem_descending, decide_eq_true_iff]

theorem Gate.nodup_joined (g : Gate S) (later : List (Gate S)) : (g.joined later).Nodup :=
  (List.nodup_reverse.mpr (Tape.roles g).nodup_keys).filter _

namespace TensorRecord

open DenseOperator

/-- The legs between two records: those that go out of one and into one. -/
def sharedLegs (records : List (TensorRecord S)) : List String :=
  (records.flatMap outgoing).filter fun leg => leg ∈ records.flatMap ingoing

/-- The contraction of records at some bits of the outer legs: the sum of the product of their
entries over the bits of the shared legs. -/
def contract [CommSemiring R] (v : Complex S → R) (records : List (TensorRecord S))
    (bits : String → Bool) : R :=
  sumOver (fun bits => (records.map fun record => (record.at? bits).elim 0 v).prod)
    (sharedLegs records) bits

variable [TrigScalar S]

/-- Whether records carry gates one after the other, from certain pieces of the wires on. -/
inductive CarryAll : (Nat → Nat) → List (TensorRecord S) → List (Gate S) → Prop where
  /-- No records carry no gates. -/
  | nil (piece : Nat → Nat) : CarryAll piece [] []
  /-- The other records carry the other gates from the pieces after the first gate on. -/
  | cons {piece : Nat → Nat} {record : TensorRecord S} {records : List (TensorRecord S)}
      {g : Gate S} {gates : List (Gate S)} (head : record.Carries g piece)
      (tail : CarryAll (g.nextPiece piece) records gates) :
      CarryAll piece (record :: records) (g :: gates)

section Legs

variable {piece : Nat → Nat} {record : TensorRecord S} {records : List (TensorRecord S)}
  {g : Gate S} {gates : List (Gate S)} {leg : String}

theorem Carries.mem_ingoing_iff (carries : record.Carries g piece) :
    leg ∈ record.ingoing ↔ ∃ q ∈ g.operands, Tape.legName q (piece q) = leg := by
  rw [carries.ingoing, List.mem_map]
  simp only [Tape.mem_descending]

theorem Carries.mem_outgoing_iff (carries : record.Carries g piece) :
    leg ∈ record.outgoing ↔ ∃ q ∈ g.operands, Tape.legName q (piece q + 1) = leg := by
  rw [carries.outgoing, List.mem_map]
  simp only [Tape.mem_descending]

/-- If a record has among certain legs the pieces that the wires of its qubits have come to, or
those so many places later, then all records together have the pieces from the first to the last
one, or those so many places later. -/
theorem CarryAll.mem_flatMap_iff (carried : CarryAll piece records gates) (later : Nat)
    {half : TensorRecord S → List String}
    (isHalf : ∀ {record : TensorRecord S} {g : Gate S} {piece leg}, record.Carries g piece →
      (leg ∈ half record ↔ ∃ q ∈ g.operands, Tape.legName q (piece q + later) = leg)) :
    leg ∈ records.flatMap half ↔ ∃ q k, piece q ≤ k ∧ k < Gate.lastPiece gates piece q ∧
      Tape.legName q (k + later) = leg := by
  induction carried with
  | nil piece =>
      simp only [List.flatMap_nil, List.not_mem_nil, false_iff, not_exists]
      rintro q k ⟨least, less, _⟩
      exact Nat.not_le_of_lt less least
  | @cons piece record records g gates head tail ih =>
      rw [List.flatMap_cons, List.mem_append, isHalf head, ih, Gate.lastPiece_cons]
      simp only [Gate.lastPiece, Gate.nextPiece]
      constructor
      · rintro (⟨q, touched, same⟩ | ⟨q, k, least, less, same⟩)
        · exact ⟨q, piece q, Nat.le_refl _, by rw [if_pos touched]; omega, same⟩
        · exact ⟨q, k, by omega, less, same⟩
      · rintro ⟨q, k, least, less, same⟩
        by_cases first : q ∈ g.operands ∧ k = piece q
        · obtain ⟨touched, rfl⟩ := first
          exact .inl ⟨q, touched, same⟩
        · refine .inr ⟨q, k, ?_, less, same⟩
          split
          · next touched =>
              have notFirst : k ≠ piece q := fun isFirst => first ⟨touched, isFirst⟩
              omega
          · exact least

/-- All pieces of a wire but the last one go into some record. -/
theorem CarryAll.mem_ingoing_iff (carried : CarryAll piece records gates) :
    leg ∈ records.flatMap ingoing ↔
      ∃ q k, piece q ≤ k ∧ k < Gate.lastPiece gates piece q ∧ Tape.legName q k = leg :=
  carried.mem_flatMap_iff 0 fun carries => carries.mem_ingoing_iff

/-- All pieces of a wire but the first one go out of some record. -/
theorem CarryAll.mem_outgoing_iff (carried : CarryAll piece records gates) :
    leg ∈ records.flatMap outgoing ↔
      ∃ q k, piece q ≤ k ∧ k < Gate.lastPiece gates piece q ∧ Tape.legName q (k + 1) = leg :=
  carried.mem_flatMap_iff 1 fun carries => carries.mem_outgoing_iff

/-- The pieces of a wire that are shared are all but the first and the last one. -/
theorem CarryAll.mem_sharedLegs_iff (carried : CarryAll piece records gates) :
    leg ∈ sharedLegs records ↔
      ∃ q k, piece q < k ∧ k < Gate.lastPiece gates piece q ∧ Tape.legName q k = leg := by
  rw [sharedLegs, List.mem_filter, decide_eq_true_iff, carried.mem_outgoing_iff,
    carried.mem_ingoing_iff]
  constructor
  · rintro ⟨⟨q, k, least, _, rfl⟩, q', k', _, less, same⟩
    obtain ⟨rfl, rfl⟩ := Tape.legName_injective same
    exact ⟨q', k + 1, Nat.lt_succ_of_le least, less, rfl⟩
  · rintro ⟨q, k, above, less, rfl⟩
    have succ : k - 1 + 1 = k := Nat.succ_pred_eq_of_pos (Nat.zero_lt_of_lt above)
    exact ⟨⟨q, k - 1, Nat.le_pred_of_lt above, by omega, by rw [succ]⟩,
      q, k, Nat.le_of_lt above, less, rfl⟩

/-- The legs that the first record shares with the others are those of the qubits that other gates
touch as well. -/
theorem sharedLegs_cons (head : record.Carries g piece)
    (tail : CarryAll (g.nextPiece piece) records gates) :
    sharedLegs (record :: records) =
      (g.joined gates).map (fun q => Tape.legName q (g.nextPiece piece q)) ++
        sharedLegs records := by
  have next : ∀ {q}, q ∈ g.operands → g.nextPiece piece q = piece q + 1 := fun touched => by
    rw [Gate.nextPiece, if_pos touched]
  have ofHead : record.outgoing.filter
      (fun leg => leg ∈ (record :: records).flatMap ingoing) =
        (g.joined gates).map fun q => Tape.legName q (g.nextPiece piece q) := by
    have legs : record.outgoing =
        (Tape.descending g).map fun q => Tape.legName q (g.nextPiece piece q) := by
      rw [head.outgoing]
      exact List.map_congr_left fun q mem => by rw [next (Tape.mem_descending.mp mem)]
    rw [legs, List.filter_map, Gate.joined]
    congr 1
    apply List.filter_congr
    intro q mem
    have touched := Tape.mem_descending.mp mem
    rw [Function.comp_apply, decide_eq_decide, List.flatMap_cons, List.mem_append,
      head.mem_ingoing_iff, tail.mem_ingoing_iff]
    constructor
    · rintro (⟨q', _, same⟩ | ⟨q', k, _, less, same⟩)
      · obtain ⟨rfl, pieces⟩ := Tape.legName_injective same
        rw [next touched] at pieces
        omega
      · obtain ⟨rfl, rfl⟩ := Tape.legName_injective same
        exact Nat.lt_add_right_iff_pos.mp less
    · intro visited
      exact .inr ⟨q, _, Nat.le_refl _, Nat.lt_add_of_pos_right visited, rfl⟩
  have ofTail : (records.flatMap outgoing).filter
      (fun leg => leg ∈ (record :: records).flatMap ingoing) = sharedLegs records := by
    apply List.filter_congr
    intro leg isOutgoing
    rw [decide_eq_decide, List.flatMap_cons, List.mem_append, or_iff_right]
    intro isIngoing
    rcases tail.mem_outgoing_iff.mp isOutgoing with ⟨q, k, least, _, rfl⟩
    rcases head.mem_ingoing_iff.mp isIngoing with ⟨q', _, same⟩
    obtain ⟨rfl, pieces⟩ := Tape.legName_injective same
    rw [Gate.nextPiece] at least
    omega
  have all : (record :: records).flatMap outgoing =
      record.outgoing ++ records.flatMap outgoing := List.flatMap_cons
  rw [sharedLegs, all, List.filter_append, ofHead, ofTail]

/-- The states on the pieces before and after a gate are those between which its record leads. -/
theorem Carries.leads {n : Nat} (carries : record.Carries g piece)
    (below : ∀ q ∈ g.operands, q < n) (bits : String → Bool) :
    record.Leads g bits (stateAt n piece bits) (stateAt n (g.nextPiece piece) bits) where
  ingoing := by
    rw [carries.ingoing, List.map_map]
    exact List.map_congr_left fun q mem =>
      (testBit_stateAt piece bits (below q (Tape.mem_descending.mp mem))).symm
  outgoing := by
    rw [carries.outgoing, List.map_map]
    refine List.map_congr_left fun q mem => ?_
    have touched := Tape.mem_descending.mp mem
    rw [testBit_stateAt _ bits (below q touched), Gate.nextPiece, if_pos touched]
    rfl
  others := clear_eq_iff.mpr fun q other => by
    have untouched : q ∉ g.operands := fun touched => other (Tape.mem_descending.mpr touched)
    by_cases inside : q < n
    · rw [testBit_stateAt _ bits inside, testBit_stateAt _ bits inside, Gate.nextPiece,
        if_neg untouched, Nat.add_zero]
    · rw [stateAt, stateAt, Nat.testBit_ofBits_ge _ q (Nat.le_of_not_lt inside),
        Nat.testBit_ofBits_ge _ q (Nat.le_of_not_lt inside)]

end Legs

/-! ## Contractions -/

section Contraction

variable [CommSemiring R] {v : Complex S → R} {n : Nat} {piece : Nat → Nat}
  {record : TensorRecord S} {records : List (TensorRecord S)} {g : Gate S} {gates : List (Gate S)}

/-- The legs of the first record are not shared among the others. -/
theorem not_mem_sharedLegs (head : record.Carries g piece)
    (tail : CarryAll (g.nextPiece piece) records gates) {leg : String} (isLeg : leg ∈ record.legs) :
    leg ∉ sharedLegs records := by
  intro isShared
  rcases tail.mem_sharedLegs_iff.mp isShared with ⟨q, k, above, _, rfl⟩
  rw [← List.take_append_drop (record.legs.length / 2) record.legs, List.mem_append] at isLeg
  rcases isLeg with isIngoing | isOutgoing
  · rcases head.mem_ingoing_iff.mp isIngoing with ⟨q', _, same⟩
    obtain ⟨rfl, rfl⟩ := Tape.legName_injective same
    rw [Gate.nextPiece] at above
    omega
  · rcases head.mem_outgoing_iff.mp isOutgoing with ⟨q', touched, same⟩
    obtain ⟨rfl, rfl⟩ := Tape.legName_injective same
    rw [Gate.nextPiece, if_pos touched] at above
    exact Nat.lt_irrefl _ above

/-- A contraction is the sum over the legs between the first record and the others of the entry of
the first record times the contraction of the others. -/
theorem contract_cons (head : record.Carries g piece)
    (tail : CarryAll (g.nextPiece piece) records gates) (bits : String → Bool) :
    contract v (record :: records) bits =
      sumOver (fun bits => (record.at? bits).elim 0 v * contract v records bits)
        ((g.joined gates).map fun q => Tape.legName q (g.nextPiece piece q)) bits := by
  rw [contract, sharedLegs_cons head tail, sumOver_append]
  apply sumOver_congr
  intro bits' _
  rw [contract, ← sumOver_mul_left]
  apply sumOver_congr
  intro bits'' agree
  have own : record.at? bits'' = record.at? bits' :=
    at?_congr fun leg isLeg => agree leg (not_mem_sharedLegs head tail isLeg)
  rw [List.map_cons, List.prod_cons, own]

omit [TrigScalar S] in
/-- The legs between a gate and later ones are neither those before the gate nor the last ones. -/
theorem stateAt_of_joined {bits bits' : String → Bool}
    (agree : ∀ leg, leg ∉ (g.joined gates).map (fun q => Tape.legName q (g.nextPiece piece q)) →
      bits' leg = bits leg) :
    stateAt n piece bits' = stateAt n piece bits ∧
      stateAt n (Gate.lastPiece gates (g.nextPiece piece)) bits' =
        stateAt n (Gate.lastPiece gates (g.nextPiece piece)) bits := by
  constructor
  · refine stateAt_congr fun q => agree _ fun isJoined => ?_
    rcases List.mem_map.mp isJoined with ⟨q', mem, same⟩
    obtain ⟨rfl, pieces⟩ := Tape.legName_injective same
    rw [Gate.nextPiece, if_pos (Gate.mem_joined.mp mem).1] at pieces
    omega
  · refine stateAt_congr fun q => agree _ fun isJoined => ?_
    rcases List.mem_map.mp isJoined with ⟨q', mem, same⟩
    obtain ⟨rfl, pieces⟩ := Tape.legName_injective same
    have visited := (Gate.mem_joined.mp mem).2
    rw [Gate.lastPiece] at pieces
    omega

/-- Between a gate and later ones, only those states contribute that have on all qubits that are not
joined the bits from before the gate, or the last ones if the gate touches the qubit. -/
theorem entries_eq_zero (vanishes : v .zero = 0) (properHead : g.Proper)
    (properTail : ∀ g ∈ gates, g.Proper) (bits : String → Bool) (i : Fin (2 ^ n)) (q : Nat)
    (inside : q < n) (other : q ∉ g.joined gates)
    (differ : i.val.testBit q ≠ bits (Tape.legName q (g.nextPiece piece q))) :
    g.operatorIn v n (stateAt n piece bits) i * (gates.map (Gate.operatorIn v n)).prod i
      (stateAt n (Gate.lastPiece gates (g.nextPiece piece)) bits) = 0 := by
  by_cases touched : q ∈ g.operands
  · have visits : Gate.visits gates q = 0 :=
      Nat.eq_zero_of_not_pos fun visited => other (Gate.mem_joined.mpr ⟨touched, visited⟩)
    have untouched : ∀ g ∈ gates, q ∉ g.operands := by
      simpa [Gate.visits, List.countP_eq_zero] using visits
    rw [Gate.prod_operatorIn_eq_zero vanishes properTail untouched, mul_zero]
    rwa [testBit_stateAt _ _ inside, Gate.lastPiece, visits, Nat.add_zero]
  · rw [Gate.operatorIn_eq_zero vanishes properHead touched, zero_mul]
    rw [Gate.nextPiece, if_neg touched, Nat.add_zero] at differ
    rw [testBit_stateAt _ _ inside]
    exact differ.symm

/-- The contraction of records that carry gates is the product of the matrices of the gates in
program order, in the row of the state that goes in and the column of the state that comes out. -/
theorem contract_eq_prod (vanishes : v .zero = 0) (carried : CarryAll piece records gates)
    (proper : ∀ g ∈ gates, g.Proper) (below : ∀ g ∈ gates, ∀ q ∈ g.operands, q < n)
    (bits : String → Bool) :
    contract v records bits = (gates.map (Gate.operatorIn v n)).prod (stateAt n piece bits)
      (stateAt n (Gate.lastPiece gates piece) bits) := by
  induction carried generalizing bits with
  | nil piece => exact (Matrix.one_apply_eq _).symm
  | @cons piece record records g gates head tail ih =>
      rcases List.forall_mem_cons.mp proper with ⟨properHead, properTail⟩
      rcases List.forall_mem_cons.mp below with ⟨belowHead, belowTail⟩
      let next := g.nextPiece piece
      let before := stateAt n piece bits
      let after := stateAt n (Gate.lastPiece gates next) bits
      have inRange : ∀ q ∈ g.joined gates, q < n := fun q mem =>
        belowHead q (Gate.mem_joined.mp mem).1
      -- The first gate and the later ones leave only the bits of the joined qubits open, so the
      -- sum over these legs is the sum over all states in the middle of the product.
      calc
        contract v (record :: records) bits =
            sumOver (fun bits => g.operatorIn v n before (stateAt n next bits) *
              (gates.map (Gate.operatorIn v n)).prod (stateAt n next bits) after)
                ((g.joined gates).map fun q => Tape.legName q (next q)) bits := by
          rw [contract_cons head tail]
          apply sumOver_congr
          intro bits' agree
          obtain ⟨sameBefore, sameAfter⟩ := stateAt_of_joined (n := n) agree
          rw [head.reads (head.leads belowHead bits'), ih properTail belowTail, sameBefore,
            sameAfter]
          rfl
        _ = ∑ i, g.operatorIn v n before i * (gates.map (Gate.operatorIn v n)).prod i after :=
          (sum_eq_sumOver (g.nodup_joined gates) inRange _
            (entries_eq_zero vanishes properHead properTail bits)).symm
        _ = ((g :: gates).map (Gate.operatorIn v n)).prod before
              (stateAt n (Gate.lastPiece (g :: gates) piece) bits) := by
          rw [Gate.lastPiece_cons, List.map_cons, List.prod_cons, Matrix.mul_apply]

end Contraction

end TensorRecord

/-! ## Runs of the dense backend -/

namespace Tape

variable [TrigScalar S]

/-- The gates of a run that succeeds leave records that carry them, from the legs of the tape on. -/
theorem writeGates_carries {gates : List (Gate S)} (proper : ∀ g ∈ gates, g.Proper)
    {t : Tape S Unit} (success : (writeGates .dense t gates).2 = .ok ()) :
    ∃ added, (writeGates .dense t gates).1.records = t.records ++ added ∧
      TensorRecord.CarryAll t.legs.get added gates ∧
      ∀ g ∈ gates, ∀ q ∈ g.operands, q < t.legs.width := by
  induction gates generalizing t with
  | nil => exact ⟨[], (List.append_nil _).symm, .nil _, by simp⟩
  | cons g gates ih =>
      rcases List.forall_mem_cons.mp proper with ⟨properHead, properTail⟩
      rw [writeGates] at success ⊢
      rcases step : writeGate .dense g t with ⟨next, _ | _⟩
      · rw [step] at success
        contradiction
      · rw [step] at success
        obtain ⟨backend, diagram, m, built, found, below, rfl⟩ := writeGate_eq_ok step
        rcases ih properTail success with ⟨added, written, carried, belowTail⟩
        have legs : (advance t.legs (roles g).keys).get = g.nextPiece t.legs.get :=
          funext (get_advance_roles below)
        rw [legs] at carried
        rw [width_advance] at belowTail
        refine ⟨recordOf g t.legs t.ordinal m :: added, ?_,
          .cons (carries_recordOf properHead built found t.legs t.ordinal) carried,
          List.forall_mem_cons.mpr ⟨below, belowTail⟩⟩
        rw [written, records, List.map_append, List.append_assoc]
        rfl

end Tape

/-- Whether a record, read along its legs, has the amplitudes of a gate backwards. -/
structure TensorRecord.ReadsBackwards [TrigScalar S] (record : TensorRecord S) (g : Gate S) :
    Prop where
  /-- The amplitudes are the entries of the matrix that the backend builds for the gate itself, in
  the row of the state after and the column of the state before the gate. -/
  amplitudes : ∀ {n diagram m}, (∀ q ∈ g.operands, q < n) →
    (Backend.dense.build () (.standard g)).2 = .ok diagram → diagram.matrix? n = some m →
      ∀ before after, g.amplitude? before after = some (m.entry after before)
  /-- Between all states that agree on the other qubits there are bits of the legs. -/
  leads : ∀ {before after},
    DenseOperator.clear (Tape.descending g) before = DenseOperator.clear (Tape.descending g) after →
      ∃ bits, record.Leads g bits before after
  /-- The entry from one state to another is the amplitude from that one back to this. -/
  backwards : ∀ {bits before after}, record.Leads g bits before after →
    record.at? bits = g.amplitude? after before
  /-- It is the amplitude from the one to the other as well exactly if the gate's own matrix is
  symmetric. -/
  forwards : ∀ {unitary}, gateMatrix? g.kind g.params = some unitary →
    ((∀ {bits before after}, record.Leads g bits before after →
        record.at? bits = g.amplitude? before after) ↔
      ∀ i < numStates g.targets.length, ∀ j < numStates g.targets.length,
        unitary.entry i j = unitary.entry j i)

namespace TensorRecord

variable [TrigScalar S] {piece : Nat → Nat}

theorem Carries.readsBackwards {record : TensorRecord S} {g : Gate S}
    (carries : record.Carries g piece) (proper : g.Proper) : record.ReadsBackwards g where
  amplitudes := fun below built found => Gate.amplitude?_eq_entry proper below built found
  leads := carries.exists_leads
  backwards := carries.reads
  forwards := fun found => (carries.forwards_iff proper).trans (Gate.isSymmetric_iff proper found)

theorem CarryAll.readsBackwards {records : List (TensorRecord S)} {gates : List (Gate S)}
    (carried : CarryAll piece records gates) (proper : ∀ g ∈ gates, g.Proper) :
    List.Forall₂ ReadsBackwards records gates := by
  induction carried with
  | nil piece => exact .nil
  | cons head tail ih =>
      rcases List.forall_mem_cons.mp proper with ⟨properHead, properTail⟩
      exact .cons (head.readsBackwards properHead) (ih properTail)

end TensorRecord

namespace Tape

variable [TrigScalar S] [CommSemiring R]

/-- Each record that the dense backend leaves reads the amplitudes of its gate backwards, and
forwards as well only if the gate's own matrix is symmetric.  So contracting the records composes
the gates in program order with each of them transposed: the value at some bits of the outer legs is
the amplitude of the transposed gates from the state on the first pieces of the wires to the state
on the last pieces.  It is the amplitude of the gates themselves if all of them are symmetric. -/
theorem write_dense_reads_backwards {v : Complex S → R} (vanishes : v .zero = 0)
    {op : Operation S} (proper : ∀ g ∈ op.leafGates, g.Proper) {t : Tape S Unit}
    (success : (write .dense t op).2 = .ok ()) :
    let n := t.legs.width
    let before := stateAt n t.legs.get
    let after := stateAt n (Gate.lastPiece op.leafGates t.legs.get)
    ∃ added, (write .dense t op).1.records = t.records ++ added ∧
      List.Forall₂ TensorRecord.ReadsBackwards added op.leafGates ∧
      (∀ bits, TensorRecord.contract v added bits =
        (op.leafGates.map fun g => (g.operatorIn v n).transpose).reverse.prod
          (after bits) (before bits)) ∧
      ((∀ g ∈ op.leafGates, g.IsSymmetric) → ∀ bits, TensorRecord.contract v added bits =
        (op.leafGates.map (Gate.operatorIn v n)).reverse.prod (after bits) (before bits)) := by
  intro n before after
  have run := write_eq_writeGates .dense (isExportable_of_write success) t
  rw [run] at success ⊢
  obtain ⟨added, written, carried, below⟩ := writeGates_carries proper success
  have transposed : ∀ bits, TensorRecord.contract v added bits =
      (op.leafGates.map fun g => (g.operatorIn v n).transpose).reverse.prod
        (after bits) (before bits) := by
    intro bits
    have product : (op.leafGates.map fun g => (g.operatorIn v n).transpose).reverse.prod =
        (op.leafGates.map (Gate.operatorIn v n)).prod.transpose := by
      rw [Matrix.transpose_list_prod, List.map_map]
      rfl
    rw [TensorRecord.contract_eq_prod vanishes carried proper below, product]
    rfl
  refine ⟨added, written, carried.readsBackwards proper, transposed, fun symmetric bits => ?_⟩
  rw [transposed, List.map_congr_left fun g mem => (symmetric g mem).transpose_operatorIn v n]

/-- A controlled Y gate, and in a block after it two controlled X gates in opposite directions, with
the wire of the first qubit at a later piece. -/
theorem write_dense_reads_backwards_block :
    let t : Tape ℝ Unit := ⟨.ofList [3, 0], 0, (), []⟩
    let controlled : Gate ℝ := ⟨.y, .ofList [⟨1, .negative⟩], [0], []⟩
    let double : Gate ℝ := ⟨.dcx, .empty, [0, 1], []⟩
    let op : Operation ℝ := .compound [.standard controlled, .compound [.standard double]]
    let pieces := Gate.lastPiece [controlled, double] t.legs.get
    ∀ bits, TensorRecord.contract Complex.value (write .dense t op).1.records bits =
      ((double.operatorIn Complex.value 2).transpose *
        (controlled.operatorIn Complex.value 2).transpose)
          (stateAt 2 pieces bits) (stateAt 2 t.legs.get bits) := by
  intro t controlled double op pieces bits
  have proper : ∀ g ∈ op.leafGates, g.Proper := by decide
  have success : (write .dense t op).2 = .ok () := rfl
  obtain ⟨added, written, _, contracted, _⟩ :=
    write_dense_reads_backwards Complex.value_zero proper success
  have product : (op.leafGates.map fun g =>
      (g.operatorIn Complex.value 2).transpose).reverse.prod =
        (double.operatorIn Complex.value 2).transpose *
          (controlled.operatorIn Complex.value 2).transpose := List.prod_pair
  rw [written, ← product]
  exact contracted bits

/-- The Y gate, read along its legs from the state zero to the state one, has the amplitude from one
to zero. -/
theorem not_write_dense_reads_forwards :
    let y : Gate ℝ := ⟨.y, .empty, [0], []⟩
    let t : Tape ℝ Unit := ⟨.ofList [0], 0, (), []⟩
    let bits := fun leg : String => leg == "q0_1"
    y.Proper ∧ (write .dense t (.standard y)).2 = .ok () ∧
      ∃ record, (write .dense t (.standard y)).1.records = [record] ∧
        record.legs = ["q0_0", "q0_1"] ∧ record.Leads y bits 0 1 ∧
        record.at? bits = some (-.i) ∧ y.amplitude? 0 1 = some .i ∧ (-.i : Complex ℝ) ≠ .i := by
  intro y t bits
  have proper : ∀ g ∈ [y], g.Proper := by decide
  have success : (writeGates .dense t [y]).2 = .ok () := rfl
  rcases writeGates_carries proper success with ⟨added, written, carried, _⟩
  cases carried with
  | @cons _ record _ _ _ carries tail =>
      cases tail
      have leads : record.Leads y bits 0 1 := by
        refine ⟨?_, ?_, by decide⟩
        · rw [carries.ingoing]
          decide +kernel
        · rw [carries.outgoing]
          decide +kernel
      have legs : record.legs = ["q0_0", "q0_1"] := by
        rw [← List.take_append_drop (record.legs.length / 2) record.legs]
        change record.ingoing ++ record.outgoing = _
        rw [carries.ingoing, carries.outgoing]
        decide +kernel
      refine ⟨by decide, success, record, written, legs, leads, carries.reads leads, rfl,
        fun same => ?_⟩
      have parts := congrArg Complex.im same
      change -((1 : ℕ) : ℝ) = ((1 : ℕ) : ℝ) at parts
      norm_num at parts

end Tape

end QuantumCircuit
