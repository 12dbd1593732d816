import Mathlib.Data.List.Dedup
import QuantumCircuit.Proofs.Counters
import QuantumCircuit.Proofs.Tensor.Network

/-!
# The wires of a network

Whatever matrices a backend computes, the records of a network join up.  A record takes in the
current piece of the wire of each of its qubits and gives out the next one, so the pieces of a wire
are counted by the gates that touch the qubit, and a piece lies between at most two records.
-/

namespace QuantumCircuit

/-! ## Backends -/

/-- Whether a backend answers matrices of the size that is asked for: `2 ^ k` rows and columns over
`k` qubits, as long as the operation is on qubits below `k`. -/
def Backend.Sized {S σ : Type} (b : Backend S σ) : Prop :=
  ∀ {state op k diagram m}, op.width ≤ k → (b.build state op).2 = .ok diagram →
    diagram.matrix? k = some m → m.rows = numStates k ∧ m.cols = numStates k

/-- Matrices over more qubits than a gate needs have the identity on the others. -/
theorem DenseOperator.size_of_matrix? {S : Type} [Scalar S] {unitary : Matrix (Complex S)}
    {g : Gate S} {n : Nat} {m : Matrix (Complex S)} (fits : (Operation.standard g).width ≤ n)
    (found : (ofGate unitary g).matrix? n = some m) :
    m.rows = numStates n ∧ m.cols = numStates n := by
  rw [matrix?] at found
  split at found
  · next narrow =>
      obtain rfl := Option.some.inj found
      have equal : (Operation.standard g).width = n := Nat.le_antisymm fits narrow
      exact ⟨congrArg numStates equal, congrArg numStates equal⟩
  · split at found
    · obtain rfl := Option.some.inj found
      have size : numStates (Operation.standard g).width *
          numStates (n - (Operation.standard g).width) = numStates n := by
        change 2 ^ _ * 2 ^ _ = 2 ^ n
        rw [← Nat.pow_add, Nat.add_sub_cancel' fits]
      exact ⟨size, size⟩
    · contradiction

theorem Backend.sized_dense {S : Type} [TrigScalar S] : (Backend.dense : Backend S Unit).Sized := by
  intro state op k diagram m fits built found
  change (denseOperator op).map _ = .ok diagram at built
  cases op with
  | standard g =>
      rw [denseOperator] at built
      cases unitary : gateMatrix g.kind g.params with
      | error e =>
          rw [unitary] at built
          contradiction
      | ok own =>
          rw [unitary] at built
          change (storedOperator own g).map _ = .ok diagram at built
          rw [storedOperator] at built
          split at built
          · contradiction
          · split at built
            · contradiction
            · obtain rfl := Except.ok.inj built
              exact DenseOperator.size_of_matrix? fits found
  | symbolic g => contradiction
  | nonUnitary e => contradiction
  | conditioned op condition => contradiction
  | compound ops => contradiction

/-! ## Qubits -/

namespace Gate

variable {P : Type}

/-- The number of qubits of a gate; one that serves twice counts once. -/
def numQubits (g : Gate P) : Nat :=
  g.operands.dedup.length

/-- The number of gates of a list that touch a qubit. -/
def visits (gates : List (Gate P)) (q : Nat) : Nat :=
  gates.countP fun g => q ∈ g.operands

theorem visits_cons (g : Gate P) (gates : List (Gate P)) (q : Nat) :
    visits (g :: gates) q = visits gates q + if q ∈ g.operands then 1 else 0 := by
  rw [visits, List.countP_cons]
  simp only [decide_eq_true_eq]
  rfl

/-- A gate that touches a qubit counts for the gates after it. -/
theorem visits_take_lt {gates : List (Gate P)} {g : Gate P} {i j q : Nat} (before : i < j)
    (found : gates[i]? = some g) (mem : q ∈ g.operands) :
    visits (gates.take i) q < visits (gates.take j) q := by
  rcases List.getElem?_eq_some_iff.mp found with ⟨inside, rfl⟩
  have upTo : visits (gates.take (i + 1)) q = visits (gates.take i) q + 1 := by
    rw [visits, List.take_succ_eq_append_getElem inside, List.countP_append,
      List.countP_singleton, decide_eq_true mem]
    rfl
  have later : visits (gates.take (i + 1)) q ≤ visits (gates.take j) q :=
    ((List.take_prefix_take_left before).sublist).countP_le
  omega

/-- Gates that touch a qubit are told apart by how many gates before them touch it. -/
theorem eq_of_visits_take {gates : List (Gate P)} {g g' : Gate P} {i j q : Nat}
    (found : gates[i]? = some g) (found' : gates[j]? = some g') (mem : q ∈ g.operands)
    (mem' : q ∈ g'.operands) (same : visits (gates.take i) q = visits (gates.take j) q) :
    i = j := by
  rcases Nat.lt_trichotomy i j with before | equal | after
  · exact absurd same (Nat.ne_of_lt (visits_take_lt before found mem))
  · exact equal
  · exact absurd same.symm (Nat.ne_of_lt (visits_take_lt after found' mem'))

end Gate

namespace Tape

variable {S : Type} {g : Gate S}

theorem length_keys_eq (g : Gate S) : (roles g).keys.length = g.numQubits :=
  ((List.perm_ext_iff_of_nodup (roles g).nodup_keys g.operands.nodup_dedup).mpr fun q => by
    rw [mem_keys_roles, List.mem_dedup]).length_eq

theorem length_descending_eq (g : Gate S) : (descending g).length = g.numQubits := by
  rw [descending, List.length_reverse, length_keys_eq]

/-- The gate on the ranks has room on as many qubits as there are, also if one serves twice. -/
theorem width_localGate_le (g : Gate S) :
    (Operation.standard (localGate g)).width ≤ (roles g).keys.length := by
  rw [Operation.width_standard_le_iff]
  intro i mem
  rw [Gate.operands, List.mem_append, List.mem_map] at mem
  rcases mem with ⟨c, isControl, rfl⟩ | isTarget
  · rw [localGate, SortedSet.mem_keys_ofList, List.mem_filterMap] at isControl
    rcases isControl with ⟨⟨q, role⟩, stored, onRank⟩
    rcases Option.map_eq_some_iff.mp onRank with ⟨polarity, _, rfl⟩
    exact List.idxOf_lt_length_of_mem (List.mem_map.mpr ⟨(q, role), stored, rfl⟩)
  · rcases mem_targets_localGate.mp isTarget with ⟨q, target, rfl⟩
    exact rank_lt (Gate.target_mem_operands target)

/-! ## Legs -/

/-- The legs that a gate has used up are those of its qubits. -/
theorem get_advance {legs : Counters} {qubits : List Nat} (distinct : qubits.Nodup)
    (below : ∀ q ∈ qubits, q < legs.width) (q : Nat) :
    (advance legs qubits).get q = legs.get q + if q ∈ qubits then 1 else 0 := by
  induction qubits generalizing legs with
  | nil => rfl
  | cons head rest ih =>
      rcases List.nodup_cons.mp distinct with ⟨notMem, distinctRest⟩
      have belowRest : ∀ q ∈ rest, q < (legs.increment head).width := by
        intro q mem
        rw [Counters.increment, Counters.width_set]
        exact below q (List.mem_cons_of_mem _ mem)
      have step : advance legs (head :: rest) = advance (legs.increment head) rest := rfl
      rw [step, ih distinctRest belowRest,
        Counters.get_increment (below head List.mem_cons_self)]
      by_cases same : q = head
      · subst same
        simp [notMem]
      · simp [same]

end Tape

/-! ## Records that join up -/

namespace TensorRecord

variable {S : Type}

/-- The ingoing legs of a record: the first half. -/
def ingoing (record : TensorRecord S) : List String :=
  record.legs.take (record.legs.length / 2)

/-- The outgoing legs of a record: the second half. -/
def outgoing (record : TensorRecord S) : List String :=
  record.legs.drop (record.legs.length / 2)

/-- Whether a record is that of a gate at a place and goes on where the wires of its qubits are,
each of them at some piece. -/
structure Continues (record : TensorRecord S) (place : Nat) (g : Gate S) (piece : Nat → Nat) :
    Prop where
  /-- The tags tell the gate, its controls and targets, and its place. -/
  tags : record.tags = Tape.tags g place
  /-- The current piece of the wire of each qubit goes in. -/
  ingoing : record.ingoing = (Tape.descending g).map fun q => Tape.legName q (piece q)
  /-- The next piece of the wire of each qubit goes out. -/
  outgoing : record.outgoing = (Tape.descending g).map fun q => Tape.legName q (piece q + 1)
  /-- There are two legs for each qubit. -/
  length_legs : record.legs.length = 2 * g.numQubits
  /-- Each leg has size two. -/
  shape : record.shape = List.replicate (2 * g.numQubits) 2
  /-- There is an entry for each row and column. -/
  length_data : record.data.length = 4 ^ g.numQubits

/-- The halves of the legs of a record. -/
theorem halves_of_legs {record : TensorRecord S} {qubits : List Nat} {piece : Nat → Nat}
    (legs : record.legs = qubits.map (fun q => Tape.legName q (piece q)) ++
      qubits.map fun q => Tape.legName q (piece q + 1)) :
    record.legs.length = 2 * qubits.length ∧
    record.ingoing = qubits.map (fun q => Tape.legName q (piece q)) ∧
    record.outgoing = qubits.map fun q => Tape.legName q (piece q + 1) := by
  have length : record.legs.length = 2 * qubits.length := by
    rw [legs, List.length_append, List.length_map, List.length_map, Nat.two_mul]
  have half : record.legs.length / 2 = qubits.length := by omega
  refine ⟨length, ?_, ?_⟩
  · rw [ingoing, half, legs]
    exact List.take_left' (List.length_map _)
  · rw [outgoing, half, legs]
    exact List.drop_left' (List.length_map _)

end TensorRecord

/-- The state of the backend after it is handed a gate on its ranks, and the matrix, or why there is
none. -/
def Backend.answer {S σ : Type} (b : Backend S σ) (state : σ) (g : Gate S) :
    σ × TensorResult (Matrix (Complex S)) :=
  let (next, diagram) := b.build state (.standard (Tape.localGate g))
  (next, diagram.bind fun d => orFault (d.matrix? (Tape.roles g).keys.length))

namespace Tape

variable {S σ : Type} {b : Backend S σ}

/-- The record of a gate, with its legs, its place and its matrix. -/
def recordOf (g : Gate S) (legs : Counters) (place : Nat) (m : Matrix (Complex S)) :
    TensorRecord S where
  tags := tags g place
  legs := legNames legs 0 (descending g) ++ legNames legs 1 (descending g)
  shape := List.replicate (2 * (roles g).keys.length) 2
  data := m.toList

variable (b) in
/-- A gate has a qubit without a leg and changes nothing, or the backend refuses it when its legs
have been counted, or its record is written with the matrix that the backend answers. -/
theorem writeGate_cases (g : Gate S) (t : Tape S σ) :
    ((∃ q ∈ g.operands, t.legs.width ≤ q) ∧ ∃ e, writeGate b g t = (t, .error e)) ∨
    ((∀ q ∈ g.operands, q < t.legs.width) ∧ ∃ backend e,
      b.answer t.backend g = (backend, .error e) ∧
      writeGate b g t = ({ t with legs := advance t.legs (roles g).keys, backend }, .error e)) ∨
    ((∀ q ∈ g.operands, q < t.legs.width) ∧ ∃ backend m,
      b.answer t.backend g = (backend, .ok m) ∧
      writeGate b g t = (⟨advance t.legs (roles g).keys, t.ordinal + 1, backend,
        t.written ++ [(t.ordinal, recordOf g t.legs t.ordinal m)]⟩, .ok ())) := by
  cases missing : (roles g).keys.find? fun q => t.legs.width ≤ q with
  | some q =>
      have operand := mem_keys_roles.mp (List.mem_of_find?_eq_some missing)
      have beyond : t.legs.width ≤ q := of_decide_eq_true (List.find?_some missing :)
      exact .inl ⟨⟨q, operand, beyond⟩, _, by rw [writeGate, missing]⟩
  | none =>
      have below := find?_beyond_eq_none_iff.mp missing
      rcases answer : b.answer t.backend g with ⟨backend, e | m⟩
      · refine .inr (.inl ⟨below, backend, e, rfl, ?_⟩)
        obtain ⟨rfl, failed⟩ := Prod.mk.inj answer
        rw [writeGate, missing]
        simp only [failed]
      · refine .inr (.inr ⟨below, backend, m, rfl, ?_⟩)
        obtain ⟨rfl, found⟩ := Prod.mk.inj answer
        rw [writeGate, missing]
        simp only [found]
        rfl

/-- What is written when a gate is: its record with the matrix that the backend answers. -/
theorem writeGate_eq_ok {g : Gate S} {t next : Tape S σ}
    (written : writeGate b g t = (next, .ok ())) :
    ∃ backend diagram m, b.build t.backend (.standard (localGate g)) = (backend, .ok diagram) ∧
      diagram.matrix? (roles g).keys.length = some m ∧ (∀ q ∈ g.operands, q < t.legs.width) ∧
      next = ⟨advance t.legs (roles g).keys, t.ordinal + 1, backend,
        t.written ++ [(t.ordinal, recordOf g t.legs t.ordinal m)]⟩ := by
  rcases writeGate_cases b g t with ⟨_, e, step⟩ | ⟨_, backend, e, _, step⟩ |
    ⟨below, backend, m, answer, step⟩
  · cases step.symm.trans written
  · cases step.symm.trans written
  · rcases built : b.build t.backend (.standard (localGate g)) with ⟨state, e | diagram⟩
    · rw [Backend.answer, built] at answer
      cases answer
    · rw [Backend.answer, built] at answer
      obtain ⟨rfl, read⟩ := Prod.mk.inj answer
      change orFault (diagram.matrix? (roles g).keys.length) = .ok m at read
      cases found : diagram.matrix? (roles g).keys.length with
      | none =>
          rw [found] at read
          cases read
      | some m' =>
          rw [found] at read
          obtain rfl := Except.ok.inj read
          exact ⟨state, diagram, m', rfl, found, below,
            (congrArg Prod.fst (step.symm.trans written)).symm⟩

/-- The legs after a gate whose qubits have legs. -/
theorem get_advance_roles {g : Gate S} {legs : Counters} (below : ∀ q ∈ g.operands, q < legs.width)
    (q : Nat) :
    (advance legs (roles g).keys).get q = legs.get q + if q ∈ g.operands then 1 else 0 := by
  rw [get_advance (roles g).nodup_keys fun q mem => below q (mem_keys_roles.mp mem)]
  simp only [mem_keys_roles]

/-- The record of a gate goes on where the wires of its qubits are. -/
theorem continues_recordOf (sized : b.Sized) {g : Gate S} {state backend : σ}
    {diagram : Diagram S} {m : Matrix (Complex S)}
    (built : b.build state (.standard (localGate g)) = (backend, .ok diagram))
    (found : diagram.matrix? (roles g).keys.length = some m) (legs : Counters) (place : Nat) :
    (recordOf g legs place m).Continues place g legs.get := by
  have qubits := length_keys_eq g
  have answer : (b.build state (.standard (localGate g))).2 = .ok diagram := by rw [built]
  rcases sized (width_localGate_le g) answer found with ⟨rows, cols⟩
  have listed : (recordOf g legs place m).legs =
      (descending g).map (fun q => legName q (legs.get q)) ++
        (descending g).map fun q => legName q (legs.get q + 1) := rfl
  obtain ⟨length, ingoing, outgoing⟩ := TensorRecord.halves_of_legs listed
  refine ⟨rfl, ingoing, outgoing, ?_, ?_, ?_⟩
  · rw [length, length_descending_eq]
  · rw [recordOf, qubits]
  · calc
      m.toList.length = numStates g.numQubits * numStates g.numQubits := by
        rw [Matrix.length_toList, rows, cols, qubits]
      _ = (2 * 2) ^ g.numQubits := (Nat.mul_pow 2 2 g.numQubits).symm

/-- The gates of a run that succeeds leave records that join up, from the legs of the tape on. -/
theorem writeGates_continues (sized : b.Sized) {gates : List (Gate S)} {t : Tape S σ}
    (success : (writeGates b t gates).2 = .ok ()) : ∃ added : List (Nat × TensorRecord S),
      (writeGates b t gates).1.written = t.written ++ added ∧
      (writeGates b t gates).1.ordinal = t.ordinal + gates.length ∧
      added.map Prod.fst = List.range' t.ordinal gates.length ∧
      ∀ {i : Nat} {e : Nat × TensorRecord S} {g : Gate S}, added[i]? = some e →
        gates[i]? = some g → e.2.Continues (t.ordinal + i) g fun q =>
          t.legs.get q + Gate.visits (gates.take i) q := by
  induction gates generalizing t with
  | nil => exact ⟨[], (List.append_nil _).symm, rfl, rfl, by simp⟩
  | cons g gates ih =>
      rw [writeGates] at success ⊢
      rcases step : writeGate b g t with ⟨next, _ | _⟩
      · rw [step] at success
        contradiction
      · rw [step] at success
        obtain ⟨backend, diagram, m, built, found, below, equal⟩ := writeGate_eq_ok step
        rcases ih success with ⟨added, written, ordinal, ordinals, joined⟩
        have legs : ∀ q, next.legs.get q = t.legs.get q + if q ∈ g.operands then 1 else 0 := by
          rw [equal]
          exact get_advance_roles below
        refine ⟨(t.ordinal, recordOf g t.legs t.ordinal m) :: added, ?_, ?_, ?_, ?_⟩
        · rw [written, equal, List.append_assoc]
          rfl
        · rw [ordinal, equal, List.length_cons, Nat.add_comm gates.length, Nat.add_assoc]
        · rw [List.map_cons, ordinals, equal, List.length_cons, List.range'_succ]
        · intro i e g' foundE foundG
          cases i with
          | zero =>
              obtain rfl := Option.some.inj foundE
              obtain rfl := Option.some.inj foundG
              exact continues_recordOf sized built found t.legs t.ordinal
          | succ i =>
              have rest := joined (i := i) foundE foundG
              have place : next.ordinal + i = t.ordinal + (i + 1) := by
                rw [equal, Nat.add_comm i, Nat.add_assoc]
              have pieces : ∀ q, next.legs.get q + Gate.visits (gates.take i) q =
                  t.legs.get q + Gate.visits ((g :: gates).take (i + 1)) q := by
                intro q
                rw [List.take_succ_cons, Gate.visits_cons, legs]
                omega
              simpa only [place, pieces] using rest

/-! ## Operations that are written -/

mutual

/-- What is written without failing consists of gates, barriers and measurements. -/
theorem isExportable_of_write : ∀ {op : Operation S} {t : Tape S σ},
    (write b t op).2 = .ok () → op.isExportable = true
  | .standard _, _, _ => rfl
  | .symbolic _, _, success => by cases success
  | .nonUnitary e, _, success => by
      rw [write] at success
      split at success
      · next measured => exact decide_eq_true measured
      · cases success
  | .conditioned _ _, _, success => by cases success
  | .compound _, _, success => allExportable_of_writeAll success

/-- Lists that are written without failing consist of gates, barriers and measurements. -/
theorem allExportable_of_writeAll : ∀ {ops : List (Operation S)} {t : Tape S σ},
    (writeAll b t ops).2 = .ok () → Operation.allExportable ops = true
  | [], _, _ => rfl
  | op :: ops, t, success => by
      rw [writeAll] at success
      rcases step : write b t op with ⟨next, _ | _⟩
      · rw [step] at success
        cases success
      · rw [step] at success
        have head : (write b t op).2 = .ok () := by rw [step]
        rw [Operation.allExportable, isExportable_of_write head, allExportable_of_writeAll success]
        rfl

end

/-! ## Listings -/

/-- A separator between texts stands in front of each but the first. -/
theorem intercalate_cons (separator first : String) (rest : List String) :
    separator.intercalate (first :: rest) =
      first ++ String.join (rest.map fun text => separator ++ text) := by
  induction rest generalizing first with
  | nil => rw [String.intercalate_singleton, List.map_nil, String.join_nil, String.append_empty]
  | cons second rest ih =>
      rw [String.intercalate_cons_cons, ih, List.map_cons, String.join_cons]
      simp only [String.append_assoc]

/-- Records after the first are listed with a separator in front of each. -/
theorem text_of_ordinals (recordText : TensorRecord S → String) {t : Tape S σ} {n : Nat}
    (ordinals : t.written.map Prod.fst = List.range n) :
    t.text recordText = ",\n".intercalate (t.written.map fun e => recordText e.2) := by
  have separated : ∀ (l : List (Nat × TensorRecord S)), (∀ e ∈ l, e.1 ≠ 0) →
      l.map (entryText recordText) = l.map fun e => ",\n" ++ recordText e.2 := by
    intro l later
    apply List.map_congr_left
    intro e mem
    rw [entryText, if_neg (later e mem)]
  rw [text]
  cases written : t.written with
  | nil => rfl
  | cons e rest =>
      cases n with
      | zero => simp [written] at ordinals
      | succ n =>
          rw [written, List.map_cons, List.range_succ_eq_map] at ordinals
          rcases List.cons.inj ordinals with ⟨first, others⟩
          have later : ∀ e ∈ rest, e.1 ≠ 0 := by
            intro e mem
            have listed : e.1 ∈ rest.map Prod.fst := List.mem_map_of_mem mem
            rw [others] at listed
            rcases List.mem_map.mp listed with ⟨i, _, equal⟩
            rw [← equal]
            exact Nat.succ_ne_zero i
          have head : entryText recordText e = recordText e.2 := by
            rw [entryText, if_pos first, String.empty_append]
          rw [List.map_cons, List.map_cons, String.join_cons, head, separated rest later,
            intercalate_cons, List.map_map]
          rfl

end Tape

/-! ## Networks -/

/-- The records that were written. -/
def Tape.records {S σ : Type} (t : Tape S σ) : List (TensorRecord S) :=
  t.written.map Prod.snd

/-- Whether what was written is the network of some gates: one record for each of them, and every
piece of a wire between at most two records. -/
structure Tape.Joins {S σ : Type} (t : Tape S σ) (gates : List (Gate S)) : Prop where
  /-- As many records are counted as there are gates. -/
  ordinal : t.ordinal = gates.length
  /-- There are as many records as gates. -/
  length : t.records.length = gates.length
  /-- Each record has its place among the tags.  Of the wire of each of its qubits it takes in the
  piece whose number is that of the gates before it which touch the qubit, and gives out the
  next. -/
  continues : ∀ {i : Nat} {record : TensorRecord S} {g : Gate S}, t.records[i]? = some record →
    gates[i]? = some g → record.Continues i g (Gate.visits (gates.take i))
  /-- No leg goes into two records. -/
  into_one : ∀ {i j : Nat} {record record' : TensorRecord S} {leg : String},
    t.records[i]? = some record → t.records[j]? = some record' →
    leg ∈ record.ingoing → leg ∈ record'.ingoing → i = j
  /-- No leg comes out of two records. -/
  out_of_one : ∀ {i j : Nat} {record record' : TensorRecord S} {leg : String},
    t.records[i]? = some record → t.records[j]? = some record' →
    leg ∈ record.outgoing → leg ∈ record'.outgoing → i = j

namespace Tape

variable {S σ : Type} {t : Tape S σ} {gates : List (Gate S)}

/-- Some legs of the gates at two places are the same only if the places are: the number of a piece
tells the gate that the wire has come to. -/
theorem eq_of_mem_legs (later : Nat) {g g' : Gate S} {i j : Nat} {leg : String}
    (found : gates[i]? = some g) (found' : gates[j]? = some g')
    (mem : leg ∈ (descending g).map fun q => legName q (Gate.visits (gates.take i) q + later))
    (mem' : leg ∈ (descending g').map fun q => legName q (Gate.visits (gates.take j) q + later)) :
    i = j := by
  rcases List.mem_map.mp mem with ⟨q, listed, rfl⟩
  rcases List.mem_map.mp mem' with ⟨q', listed', names⟩
  rcases legName_injective names with ⟨rfl, pieces⟩
  exact Gate.eq_of_visits_take found found' (mem_descending.mp listed) (mem_descending.mp listed')
    (Nat.add_right_cancel pieces).symm

/-- Records that go on where the wires are make a network. -/
theorem Joins.of_continues (ordinal : t.ordinal = gates.length)
    (length : t.records.length = gates.length)
    (continues : ∀ {i : Nat} {record : TensorRecord S} {g : Gate S}, t.records[i]? = some record →
      gates[i]? = some g → record.Continues i g (Gate.visits (gates.take i))) : t.Joins gates := by
  have gate : ∀ {i : Nat} {record : TensorRecord S}, t.records[i]? = some record →
      ∃ g, gates[i]? = some g := by
    intro i record found
    have inside : i < gates.length := length ▸ (List.getElem?_eq_some_iff.mp found).1
    exact ⟨_, List.getElem?_eq_getElem inside⟩
  refine ⟨ordinal, length, continues, fun {i j record record' leg} found found' mem mem' => ?_,
    fun {i j record record' leg} found found' mem mem' => ?_⟩
  · rcases gate found with ⟨g, foundG⟩
    rcases gate found' with ⟨g', foundG'⟩
    rw [(continues found foundG).ingoing] at mem
    rw [(continues found' foundG').ingoing] at mem'
    exact eq_of_mem_legs 0 foundG foundG' mem mem'
  · rcases gate found with ⟨g, foundG⟩
    rcases gate found' with ⟨g', foundG'⟩
    rw [(continues found foundG).outgoing] at mem
    rw [(continues found' foundG').outgoing] at mem'
    exact eq_of_mem_legs 1 foundG foundG' mem mem'

end Tape

namespace Network

variable {S σ : Type} {b : Backend S σ} {start : σ} {c : Circuit S}

/-- A listing, in an envelope on request. -/
def enclosed (options : ExportOptions) (listing : String) : String :=
  if options.envelope then "\x7b\"tensors\": [\n" ++ listing ++ "\n]\x7d\n" else listing

/-- The text of a network that is written without failing. -/
theorem text_of_ordinals (recordText : TensorRecord S → String) (options : ExportOptions)
    {t : Tape S σ} {n : Nat} (ordinals : t.written.map Prod.fst = List.range n) :
    text recordText options (t, .ok ()) =
      enclosed options (",\n".intercalate (t.records.map recordText)) := by
  rw [text, enclosed, Tape.text_of_ordinals recordText ordinals, Tape.records, List.map_map]
  cases options.envelope with
  | false =>
      rw [if_neg Bool.false_ne_true, if_neg Bool.false_ne_true, String.empty_append,
        String.append_empty]
      rfl
  | true => rfl

/-- If nothing fails, the records of a circuit are the network of its gates, whatever matrices the
backend computes, and they are listed with separators in between. -/
theorem write_joins (sized : b.Sized) (success : (write b start c).2 = .ok ()) :
    (write b start c).1.Joins (Operation.leafGatesAll c.ops) ∧
    ∀ recordText options, text recordText options (write b start c) =
      enclosed options (",\n".intercalate ((write b start c).1.records.map recordText)) := by
  have exportable := Tape.allExportable_of_writeAll success
  have run : write b start c = Tape.writeGates b ⟨.zero (width c), 0, start, []⟩
      (Operation.leafGatesAll c.ops) := Tape.writeAll_eq_writeGates b exportable _
  have outcome : write b start c = ((write b start c).1, .ok ()) := Prod.ext rfl success
  rw [run] at success
  rcases Tape.writeGates_continues sized success with ⟨added, written, ordinal, ordinals, continues⟩
  rw [← run] at written ordinal
  rw [← List.range_eq_range'] at ordinals
  change _ = added at written
  rw [Nat.zero_add] at ordinal
  subst written
  refine ⟨.of_continues ordinal ?_ fun {i record g} found foundG => ?_,
    fun recordText options => ?_⟩
  · have lengths := congrArg List.length ordinals
    rw [List.length_map, List.length_range] at lengths
    rw [Tape.records, List.length_map, lengths]
  · rw [Tape.records, List.getElem?_map] at found
    rcases Option.map_eq_some_iff.mp found with ⟨e, foundE, rfl⟩
    simpa only [Counters.get_zero, Nat.zero_add] using continues foundE foundG
  · rw [outcome]
    exact text_of_ordinals recordText options ordinals

/-- A gate whose control is its target, a measurement, and in a nested block a barrier and a gate
on two targets. -/
theorem write_joins_nested :
    let twice : Gate Float := ⟨.x, .ofList [⟨0, .positive⟩], [0], []⟩
    let single : Gate Float := ⟨.h, .empty, [1], []⟩
    let barrier : Gate Float := ⟨.barrier, .empty, [0, 1], []⟩
    let double : Gate Float := ⟨.dcx, .empty, [0, 1], []⟩
    let c : Circuit Float := { (Circuit.blank Config.default).insertQubits 2 "q" with
      ops := [.standard twice, .nonUnitary (.ofMeasure [0] [0]), .standard single,
        .compound [.standard barrier, .compound [.standard double]]] }
    (Backend.dense : Backend Float Unit).Sized ∧ (write .dense () c).2 = .ok () ∧
      (write .dense () c).1.Joins [twice, single, double] := by
  intro twice single barrier double c
  have success : (write .dense () c).2 = .ok () := rfl
  exact ⟨Backend.sized_dense, success, (write_joins Backend.sized_dense success).1⟩

end Network

end QuantumCircuit
