import QuantumCircuit.Proofs.Digits
import QuantumCircuit.Proofs.Tensor.Frame

/-!
# Reading the record of a gate

The legs of a record name qubits, and its data is a matrix over these, the first one most
significant.  `extended?` reads the record as a matrix over any number of qubits, with the identity
on those that are not named, and a record shows a gate if that is the matrix that the backend builds
for the gate itself, not for the gate on the ranks of its qubits.
-/

namespace QuantumCircuit

open DenseOperator

/-! ## Matrices row by row -/

namespace Matrix

variable {A : Type}

theorem length_toList (m : Matrix A) : m.toList.length = m.rows * m.cols := by
  simp [toList, List.length_flatMap]

/-- The place of an entry. -/
theorem getElem?_toList (m : Matrix A) {r c : Nat} (row : r < m.rows) (col : c < m.cols) :
    m.toList[m.cols * r + c]? = some (m.entry r c) := by
  have upTo : ∀ n, r < n →
      ((List.range n).flatMap fun r => (List.range m.cols).map (m.entry r))[m.cols * r + c]? =
        some (m.entry r c) := by
    intro n
    induction n with
    | zero => intro below; omega
    | succ n ih =>
        intro below
        have length : ((List.range n).flatMap fun r =>
            (List.range m.cols).map (m.entry r)).length = m.cols * n := by
          simp [List.length_flatMap, Nat.mul_comm]
        rw [List.range_succ, List.flatMap_append, List.flatMap_singleton, List.getElem?_append,
          length]
        rcases Nat.lt_succ_iff_lt_or_eq.mp below with before | rfl
        · have inside : m.cols * r + c < m.cols * n :=
            calc
              m.cols * r + c < m.cols * r + m.cols := Nat.add_lt_add_left col _
              _ = m.cols * (r + 1) := (Nat.mul_succ _ _).symm
              _ ≤ m.cols * n := Nat.mul_le_mul_left _ before
          rw [if_pos inside, ih before]
        · have beyond : ¬ m.cols * r + c < m.cols * r := by omega
          rw [if_neg beyond, Nat.add_sub_cancel_left]
          simp [col]
  exact upTo m.rows row

end Matrix

/-! ## The names of legs -/

namespace Tape

/-- The name of a leg tells its qubit and its piece. -/
theorem legName_injective {q k q' k' : Nat} (same : legName q k = legName q' k') :
    q = q' ∧ k = k' := by
  have lists := congrArg String.toList same
  simp only [legName, String.toList_append, Nat.toString_eq_ofList_toDigits,
    String.toList_ofList, List.append_assoc] at lists
  rcases digits_append_inj rfl (List.append_cancel_left lists) with ⟨qubits, pieces⟩
  exact ⟨qubits, toDigits_injective pieces⟩

/-- Lists of legs of different qubits differ. -/
theorem map_legName_injective {qubits qubits' : List Nat} {piece piece' : Nat → Nat}
    (same : qubits.map (fun q => legName q (piece q)) =
      qubits'.map fun q => legName q (piece' q)) : qubits = qubits' := by
  induction qubits generalizing qubits' with
  | nil => exact (List.map_eq_nil_iff.mp same.symm).symm
  | cons q rest ih =>
      cases qubits' with
      | nil => contradiction
      | cons q' rest' =>
          rcases List.cons.inj same with ⟨heads, tails⟩
          rw [(legName_injective heads).1, ih tails]

end Tape

/-! ## Records -/

namespace TensorRecord

variable {S : Type}

/-- Whether the legs of a record name some qubits: for each of them a piece of its wire goes in,
and the next piece goes out. -/
def NamesQubits (record : TensorRecord S) (qubits : List Nat) : Prop :=
  ∃ piece : Nat → Nat, record.legs =
    qubits.map (fun q => Tape.legName q (piece q)) ++
      qubits.map fun q => Tape.legName q (piece q + 1)

/-- Legs name only one list of qubits. -/
theorem NamesQubits.unique {record : TensorRecord S} {qubits qubits' : List Nat}
    (names : record.NamesQubits qubits) (names' : record.NamesQubits qubits') :
    qubits = qubits' := by
  rcases names with ⟨piece, legs⟩
  rcases names' with ⟨piece', legs'⟩
  have lengths := congrArg List.length (legs.symm.trans legs')
  rw [List.length_append, List.length_append, List.length_map, List.length_map, List.length_map,
    List.length_map] at lengths
  have halves : (qubits.map fun q => Tape.legName q (piece q)).length =
      (qubits'.map fun q => Tape.legName q (piece' q)).length := by
    rw [List.length_map, List.length_map]
    omega
  exact Tape.map_legName_injective (List.append_inj (legs.symm.trans legs') halves).1

variable [Scalar S]

/-- The entry of a record, in a row and a column over any number of qubits.  The data is the matrix
over some of them, the first one most significant, and the others have the identity. -/
def extended? (record : TensorRecord S) (qubits : List Nat) (row col : Nat) :
    Option (Complex S) :=
  if clear qubits row = clear qubits col then
    record.data[numStates qubits.length * gather qubits row + gather qubits col]?
  else some .zero

end TensorRecord

/-- Whether a record shows a gate at a place. -/
structure TensorRecord.Shows {S : Type} [TrigScalar S] (record : TensorRecord S) (ordinal : Nat)
    (g : Gate S) : Prop where
  /-- The tags tell the gate, its controls and targets, and its place. -/
  tags : record.tags = Tape.tags g ordinal
  /-- The legs name the qubits of the gate in descending order. -/
  legs : ∀ qubits, record.NamesQubits qubits ↔ qubits = Tape.descending g
  /-- There is a leg of size two for each bit of the row and of the column. -/
  shape : record.shape = List.replicate (2 * g.operands.length) 2
  /-- The data is a square matrix over the qubits of the gate. -/
  square : record.data.length = numStates g.operands.length * numStates g.operands.length
  /-- The backend builds the gate itself and has its matrix over any number of qubits that has room
  for the gate and for which a matrix can be stored. -/
  built : ∀ n ≤ maxMatrixQubits, (∀ q ∈ g.operands, q < n) → ∃ diagram m,
    (Backend.dense.build () (.standard g)).2 = .ok diagram ∧ diagram.matrix? n = some m
  /-- Whenever there is such a matrix, it is the record with the identity on all other qubits. -/
  entries : ∀ n, (∀ q ∈ g.operands, q < n) → ∀ diagram m,
    (Backend.dense.build () (.standard g)).2 = .ok diagram → diagram.matrix? n = some m →
      m.rows = numStates n ∧ m.cols = numStates n ∧
      ∀ row < numStates n, ∀ col < numStates n,
        record.extended? (Tape.descending g) row col = some (m.entry row col)

namespace Tape

/-! ## Writing the record of a gate -/

variable {S : Type} {g : Gate S}

/-- The legs of a gate name its qubits. -/
theorem namesQubits_legNames {record : TensorRecord S} {legs : Counters} {qubits : List Nat}
    (written : record.legs = legNames legs 0 qubits ++ legNames legs 1 qubits) :
    record.NamesQubits qubits :=
  ⟨legs.get, written⟩

/-- Whether the qubits of a gate have legs, and are few enough for its matrix to be stored. -/
def Fits (width : Nat) (g : Gate S) : Prop :=
  (∀ q ∈ g.operands, q < width) ∧ g.operands.length ≤ maxMatrixQubits

instance (width : Nat) (g : Gate S) : Decidable (Fits width g) :=
  inferInstanceAs (Decidable (_ ∧ _))

/-- The search for a qubit without a leg fails if all qubits of the gate have legs. -/
theorem find?_beyond_eq_none_iff {width : Nat} :
    ((roles g).keys.find? fun q => width ≤ q) = none ↔ ∀ q ∈ g.operands, q < width := by
  rw [List.find?_eq_none]
  simp only [mem_keys_roles, decide_eq_true_eq, Nat.not_le]

variable [TrigScalar S]

/-- The backend has the matrix of a gate whenever there is room for the gate and it can be stored,
and the matrix consists of what the gate does. -/
theorem build_dense_spec (proper : g.Proper) {unitary : Matrix (Complex S)}
    (found : gateMatrix? g.kind g.params = some unitary) {n : Nat}
    (below : ∀ q ∈ g.operands, q < n) :
    (n ≤ maxMatrixQubits → ∃ diagram m, (Backend.dense.build () (.standard g)).2 = .ok diagram ∧
      diagram.matrix? n = some m) ∧
    ∀ diagram m, (Backend.dense.build () (.standard g)).2 = .ok diagram →
      diagram.matrix? n = some m → m.rows = numStates n ∧ m.cols = numStates n ∧
        ∀ row col, m.entry row col = action unitary g.controls.keys g.targets row col := by
  have fits := Operation.width_standard_le_iff.mpr below
  have distinct := (List.nodup_append.mp proper.2).2.1
  rcases exists_build proper.1 with ⟨unitary', found', built⟩
  obtain rfl : unitary = unitary' := Option.some.inj (found.symm.trans found')
  constructor
  · intro stored
    rcases exists_matrix? unitary distinct below stored with ⟨m, matrix, _⟩
    rw [if_pos (Nat.le_trans fits stored)] at built
    exact ⟨_, m, built, matrix⟩
  · intro diagram m answer matrix
    obtain ⟨shape, limit⟩ := matrix?_of_build proper.1 found answer
    have stored : n ≤ maxMatrixQubits := (Nat.le_max_left _ _).trans (limit n m matrix)
    rcases exists_matrix? unitary distinct below stored with ⟨m', matrix', rows, cols, entries⟩
    rw [shape] at matrix
    obtain rfl : m = m' := Option.some.inj (matrix.symm.trans matrix')
    exact ⟨rows, cols, entries⟩

/-- What the backend builds for the gate on the ranks shows the gate. -/
theorem exists_shows (proper : g.Proper) (small : g.operands.length ≤ maxMatrixQubits)
    (legs : Counters) (ordinal : Nat) :
    ∃ diagram m, (Backend.dense.build () (.standard (localGate g))).2 = .ok diagram ∧
      diagram.matrix? g.operands.length = some m ∧
      TensorRecord.Shows
        { tags := tags g ordinal
          legs := legNames legs 0 (descending g) ++ legNames legs 1 (descending g)
          shape := List.replicate (2 * g.operands.length) 2
          data := m.toList } ordinal g := by
  have distinct := proper.2
  rcases exists_gateMatrix? proper.1 g.params with ⟨unitary, found, _⟩
  have localSpec := build_dense_spec (proper_localGate proper) found
    (Operation.width_standard_le_iff.mp (Nat.le_of_eq (width_localGate distinct)))
  rcases localSpec.1 small with ⟨diagram, m, built, matrix⟩
  rcases localSpec.2 diagram m built matrix with ⟨rows, cols, localEntries⟩
  refine ⟨diagram, m, built, matrix, rfl, fun qubits => ?_, rfl, ?_, ?_, ?_⟩
  · constructor
    · exact fun names => names.unique (namesQubits_legNames rfl)
    · rintro rfl
      exact namesQubits_legNames rfl
  · rw [Matrix.length_toList, rows, cols]
  · exact fun n stored below => (build_dense_spec proper found below).1 stored
  · intro n below fullDiagram full fullBuilt fullMatrix
    obtain ⟨fullRows, fullCols, entries⟩ :=
      (build_dense_spec proper found below).2 fullDiagram full fullBuilt fullMatrix
    refine ⟨fullRows, fullCols, fun row _ col _ => ?_⟩
    have inside : ∀ state, gather (descending g) state < numStates g.operands.length := by
      intro state
      rw [← length_descending distinct]
      exact gather_lt (descending g) state
    rw [entries, action_localGate distinct, TensorRecord.extended?]
    by_cases others : clear (descending g) row = clear (descending g) col
    · rw [if_pos others, if_pos others, ← localEntries, length_descending distinct, ← cols]
      exact m.getElem?_toList (rows ▸ inside row) (cols ▸ inside col)
    · rw [if_neg others, if_neg others]

/-- A gate that fits leaves one more record, which shows it. -/
theorem writeGate_of_fits (proper : g.Proper) {t : Tape S Unit} (fits : Fits t.legs.width g) :
    ∃ record : TensorRecord S, record.Shows t.ordinal g ∧ writeGate .dense g t =
      ({ t with
          legs := advance t.legs (roles g).keys
          ordinal := t.ordinal + 1
          written := t.written ++ [(t.ordinal, record)] }, .ok ()) := by
  rcases fits with ⟨within, small⟩
  rcases exists_shows proper small t.legs t.ordinal with ⟨diagram, m, built, matrix, shows⟩
  have read : (Except.ok diagram : TensorResult (Diagram S)).bind
      (fun d => orFault (d.matrix? g.operands.length)) = .ok m := by
    change orFault (diagram.matrix? g.operands.length) = .ok m
    rw [matrix]
    rfl
  refine ⟨_, shows, ?_⟩
  rw [writeGate, find?_beyond_eq_none_iff.mpr within]
  simp only [built, length_keys_roles proper.2, read]
  rfl

/-- A gate that does not fit leaves no record, and the export fails. -/
theorem writeGate_of_not_fits (proper : g.Proper) {t : Tape S Unit}
    (unfit : ¬ Fits t.legs.width g) :
    ∃ (next : Tape S Unit) (e : Failure TensorError), writeGate .dense g t = (next, .error e) ∧
      next.written = t.written := by
  rw [writeGate]
  cases missing : (roles g).keys.find? fun q => t.legs.width ≤ q with
  | some q => exact ⟨_, _, rfl, rfl⟩
  | none =>
      have large : ¬ g.operands.length ≤ maxMatrixQubits := fun small =>
        unfit ⟨find?_beyond_eq_none_iff.mp missing, small⟩
      rcases exists_build (proper_localGate proper).1 with ⟨unitary, _, built⟩
      rw [width_localGate proper.2, if_neg large] at built
      simp only [built]
      exact ⟨_, _, rfl, rfl⟩

end Tape

end QuantumCircuit
