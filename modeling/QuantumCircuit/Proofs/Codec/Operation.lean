import QuantumCircuit.Codec.Operation
import QuantumCircuit.Proofs.Json.Decoder
import QuantumCircuit.Proofs.Json.Text
import QuantumCircuit.Proofs.SortedMap

/-!
# Operations are read back

Every operation whose numbers are finite and whose indices are in range is read back from its JSON
form, as long as that form is not nested deeper than a decoder goes.  Each type has a lemma that
its decoder reads what its encoder writes, and the lemma of a type is put together from those of the
types of its fields.  Of the library that writes and reads the texts, this takes no more than that
it reads back values and finite numbers.
-/

namespace QuantumCircuit.Codec

open Json

/-! ## Kinds, controls and registers -/

theorem decodes_encodeKind (k : OpKind) : Decodes decodeKind (encodeKind k) k :=
  .asName (OpKind.ofTag?_tag k)

theorem polarityOfTag?_polarityTag (p : Polarity) : polarityOfTag? (polarityTag p) = some p := by
  cases p <;> decide

theorem comparisonOfTag?_comparisonTag (c : Comparison) :
    comparisonOfTag? (comparisonTag c) = some c := by
  cases c <;> decide

theorem decodes_encodeComparison (c : Comparison) :
    Decodes decodeComparison (encodeComparison c) c :=
  .asName (comparisonOfTag?_comparisonTag c)

theorem decodes_index {n : Nat} (inRange : n ≤ maxIndex) : Decodes decodeIndex (.ofNat n) n :=
  .asNatural inRange

theorem decodes_indices {l : List Nat} (inRange : ∀ n ∈ l, n ≤ maxIndex) :
    Decodes (asList decodeIndex) (.ofList .ofNat l) l :=
  .asList fun n mem => decodes_index (inRange n mem)

theorem decodes_encodeControl {c : Control} (inRange : c.qubit ≤ maxIndex) :
    Decodes decodeControl (encodeControl c) c := by
  have qubit := decodes_index inRange
  have polarity : Decodes (asName polarityOfTag?) (.string (polarityTag c.polarity)) c.polarity :=
    .asName (polarityOfTag?_polarityTag c.polarity)
  have found : fields? ["qubit", "kind"] (encodeControl c) =
      some [some (.ofNat c.qubit), some (.string (polarityTag c.polarity))] := rfl
  apply Decodes.asRecord found
  intro n
  simp only [Option.bind_eq_bind, qubit.bind_required, polarity.bind_required, depthOfMembers,
    Nat.max_le, Nat.zero_le, and_true, ite_and]

/-- The set of the members of a set is the set. -/
theorem ofList_keys (cs : Controls) : SortedSet.ofList cs.keys = cs :=
  SortedSet.ext_keys fun _ => SortedSet.mem_keys_ofList

theorem decodes_encodeControls {cs : Controls} (inRange : ∀ c ∈ cs.keys, c.qubit ≤ maxIndex) :
    Decodes decodeControls (encodeControls cs) cs := by
  have members : Decodes (asList decodeControl) (encodeControls cs) cs.keys :=
    .asList fun c mem => decodes_encodeControl (inRange c mem)
  intro n
  rw [decodeControls, members n]
  split
  · rw [Option.map_some, ofList_keys]
  · rfl

theorem decodes_encodeRegister {r : Register} (start : r.start ≤ maxIndex)
    (size : r.size ≤ maxIndex) : Decodes decodeRegister (encodeRegister r) r := by
  have start := decodes_index start
  have size := decodes_index size
  have found : fields? ["start", "size"] (encodeRegister r) =
      some [some (.ofNat r.start), some (.ofNat r.size)] := rfl
  apply Decodes.asRecord found
  intro n
  simp only [Option.bind_eq_bind, start.bind_required, size.bind_required, depthOfMembers,
    Nat.max_le, Nat.zero_le, and_true, ite_and]

/-! ## Parameters -/

/-- Whether a number is neither infinite nor not-a-number. -/
def FiniteNumber (x : Float) : Prop :=
  x.isFinite = true

instance (x : Float) : Decidable (FiniteNumber x) :=
  inferInstanceAs (Decidable (x.isFinite = true))

section Numbers

variable [Library] [LawfulLibrary]

theorem decodes_ofFloat {x : Float} (finite : FiniteNumber x) :
    Decodes asFloat (.ofFloat x) x := by
  obtain ⟨n, written, read⟩ := LawfulLibrary.toFloat_numeral? finite
  intro left
  rw [ofFloat, written]
  dsimp only
  rw [asFloat, read]
  exact (if_pos finite).trans (if_pos (Nat.zero_le left)).symm

theorem decodes_encodeTerm {t : Term Float} (finite : FiniteNumber t.coefficient) :
    Decodes decodeTerm (encodeTerm t) t := by
  have coefficient := decodes_ofFloat finite
  have name := Decodes.asText t.name
  have found : fields? ["coefficient", "variable"] (encodeTerm t) =
      some [some (.ofFloat t.coefficient), some (.string t.name)] := rfl
  apply Decodes.asRecord found
  intro n
  simp only [Option.bind_eq_bind, coefficient.bind_required, name.bind_required, depthOfMembers,
    Nat.max_le, Nat.zero_le, and_true, ite_and]

/-- Whether the constant and all coefficients of an expression are finite. -/
structure FiniteExpression (e : Expression Float) : Prop where
  /-- The coefficients. -/
  coefficients : ∀ t ∈ e.terms, FiniteNumber t.coefficient
  /-- The constant. -/
  constant : FiniteNumber e.constant

theorem decodes_encodeExpression {e : Expression Float} (finite : FiniteExpression e) :
    Decodes decodeExpression (encodeExpression e) e := by
  have terms : Decodes (asList decodeTerm) (.ofList encodeTerm e.terms) e.terms :=
    .asList fun t mem => decodes_encodeTerm (finite.coefficients t mem)
  have constant := decodes_ofFloat finite.constant
  have found : fields? ["terms", "constant"] (encodeExpression e) =
      some [some (.ofList encodeTerm e.terms), some (.ofFloat e.constant)] := rfl
  apply Decodes.asRecord found
  intro n
  simp only [Option.bind_eq_bind, terms.bind_required, constant.bind_required, depthOfMembers,
    Nat.max_le, Nat.zero_le, and_true, ite_and]

/-- Whether all numbers in a parameter are finite. -/
def FiniteParameter : Parameter Float → Prop
  | .number v => FiniteNumber v
  | .symbol e => FiniteExpression e

theorem decodes_encodeParameter {p : Parameter Float} (finite : FiniteParameter p) :
    Decodes decodeParameter (encodeParameter p) p := by
  cases p with
  | number v => exact .choice Parameter.number rfl (fun _ => rfl) (decodes_ofFloat finite)
  | symbol e => exact .choice Parameter.symbol rfl (fun _ => rfl) (decodes_encodeExpression finite)

end Numbers

/-! ## Gates, measurements and conditions -/

/-- Whether the operands of a gate are in range, and its parameters are as a test asks. -/
structure GateInRange {P : Type} (Param : P → Prop) (g : Gate P) : Prop where
  /-- The controls. -/
  controls : ∀ c ∈ g.controls.keys, c.qubit ≤ maxIndex
  /-- The targets. -/
  targets : ∀ q ∈ g.targets, q ≤ maxIndex
  /-- The parameters. -/
  params : ∀ p ∈ g.params, Param p

theorem decodes_encodeGate {P : Type} {decode : Decoder P} {encode : P → Json}
    {Param : P → Prop} (param : ∀ p, Param p → Decodes decode (encode p) p) {g : Gate P}
    (inRange : GateInRange Param g) : Decodes (decodeGate decode) (encodeGate encode g) g := by
  have kind := decodes_encodeKind g.kind
  have controls := decodes_encodeControls inRange.controls
  have targets := decodes_indices inRange.targets
  have params : Decodes (asList decode) (.ofList encode g.params) g.params :=
    .asList fun p mem => param p (inRange.params p mem)
  have found : fields? ["op_type", "controls", "targets", "params"] (encodeGate encode g) =
      some [some (encodeKind g.kind), some (encodeControls g.controls),
        some (.ofList .ofNat g.targets), some (.ofList encode g.params)] := rfl
  apply Decodes.asRecord found
  intro n
  simp only [Option.bind_eq_bind, kind.bind_required, controls.bind_required,
    targets.bind_required, params.bind_required, depthOfMembers, Nat.max_le, Nat.zero_le, and_true,
    ite_and]

/-- Whether the operands of a measurement or a reset are in range. -/
structure NonUnitaryInRange (e : NonUnitary) : Prop where
  /-- The qubits. -/
  targets : ∀ q ∈ e.targets, q ≤ maxIndex
  /-- The classical bits. -/
  clbits : ∀ b ∈ e.clbits, b ≤ maxIndex

theorem decodes_encodeNonUnitary {e : NonUnitary} (inRange : NonUnitaryInRange e) :
    Decodes decodeNonUnitary (encodeNonUnitary e) e := by
  have kind := decodes_encodeKind e.kind
  have targets := decodes_indices inRange.targets
  have clbits := decodes_indices inRange.clbits
  have found : fields? ["op_type", "targets", "clbits"] (encodeNonUnitary e) =
      some [some (encodeKind e.kind), some (.ofList .ofNat e.targets),
        some (.ofList .ofNat e.clbits)] := rfl
  apply Decodes.asRecord found
  intro n
  simp only [Option.bind_eq_bind, kind.bind_required, targets.bind_required,
    clbits.bind_required, depthOfMembers, Nat.max_le, Nat.zero_le, and_true, ite_and]

/-- Whether the register of a condition is in range, and its value has 64 bits. -/
structure ConditionInRange (c : Condition) : Prop where
  /-- The start of the register. -/
  start : c.register.start ≤ maxIndex
  /-- The size of the register. -/
  size : c.register.size ≤ maxIndex
  /-- The expected value. -/
  value : c.value ≤ 0xffffffffffffffff

/-! ## Operations -/

/-- An operation that there can be: its numbers are finite, and its indices are in range. -/
inductive OperationInRange : Operation Float → Prop
  /-- A gate with numbers as parameters. -/
  | standard {g : Gate Float} (gate : GateInRange FiniteNumber g) : OperationInRange (.standard g)
  /-- A gate with expressions among its parameters. -/
  | symbolic {g : Gate (Parameter Float)} (gate : GateInRange FiniteParameter g) :
      OperationInRange (.symbolic g)
  /-- A measurement or a reset. -/
  | nonUnitary {e : NonUnitary} (effect : NonUnitaryInRange e) : OperationInRange (.nonUnitary e)
  /-- An operation under a condition. -/
  | conditioned {op : Operation Float} {c : Condition} (inner : OperationInRange op)
      (condition : ConditionInRange c) : OperationInRange (.conditioned op c)
  /-- A block. -/
  | compound {ops : List (Operation Float)} (inner : ∀ op ∈ ops, OperationInRange op) :
      OperationInRange (.compound ops)

theorem encodeOperations_eq_map [Library] (ops : List (Operation Float)) :
    encodeOperations ops = ops.map encodeOperation := by
  induction ops with
  | nil => rfl
  | cons op ops ih => rw [encodeOperations, ih, List.map_cons]

/-- The fields of a condition. -/
theorem decodeCondition_fields {c : Condition} (inRange : ConditionInRange c) (n : Nat) :
    decodeCondition n (some (encodeRegister c.register)) (some (.ofNat c.value))
        (some (encodeComparison c.comparison)) =
      if (encodeRegister c.register).depth ≤ n then some c else none := by
  have register := decodes_encodeRegister inRange.start inRange.size
  have value : Decodes decodeWord (.ofNat c.value) c.value := .asNatural inRange.value
  have comparison := decodes_encodeComparison c.comparison
  have flatValue : (Json.ofNat c.value).depth ≤ n := Nat.zero_le n
  have flatComparison : (encodeComparison c.comparison).depth ≤ n := Nat.zero_le n
  rw [decodeCondition]
  simp only [Option.bind_eq_bind, register.bind_required, value.bind_required,
    comparison.bind_required, if_pos flatValue, if_pos flatComparison]

theorem decodes_conditioned [Library] {op : Operation Float} {c : Condition}
    (inner : Decodes decodeOperation (encodeOperation op) op) (inRange : ConditionInRange c) :
    Decodes decodeOperation (encodeOperation (.conditioned op c)) (.conditioned op c) := by
  intro n
  have nested : (encodeOperation (.conditioned op c)).depth =
      max (encodeOperation op).depth (encodeRegister c.register).depth + 2 := by
    rw [encodeOperation]
    simp only [depth, depthOfMembers, encodeComparison, ofNat, Nat.max_zero]
  rw [nested]
  -- One level is the object of the choice, one that of the fields.
  rcases n with _ | _ | m
  · exact (if_neg (by omega)).symm
  · exact (if_neg (by omega)).symm
  · have read := inner.bind_required m fun op =>
      (decodeCondition m (some (encodeRegister c.register)) (some (.ofNat c.value))
        (some (encodeComparison c.comparison))).bind fun condition =>
          some (Operation.conditioned op condition)
    apply read.trans
    rw [decodeCondition_fields inRange]
    simp only [Nat.add_le_add_iff_right, Nat.max_le, ite_and]
    split
    · split <;> rfl
    · rfl

theorem decodes_compound [Library] {ops : List (Operation Float)}
    (inner : ∀ op ∈ ops, Decodes decodeOperation (encodeOperation op) op) :
    Decodes decodeOperation (encodeOperation (.compound ops)) (.compound ops) := by
  intro n
  have nested : (encodeOperation (.compound ops)).depth =
      depthOfItems (ops.map encodeOperation) + 3 := by
    rw [encodeOperation, encodeOperations_eq_map]
    simp only [depth, depthOfMembers, Nat.max_zero]
  rw [nested]
  -- The third level is the array of the operations.
  rcases n with _ | _ | _ | m
  · exact (if_neg (by omega)).symm
  · exact (if_neg (by omega)).symm
  · exact (if_neg (by omega)).symm
  · have items := Decodes.mapM_items inner m
    rw [← encodeOperations_eq_map] at items
    change ((encodeOperations ops).mapM (decodeOperation m)).map Operation.compound = _
    rw [items, encodeOperations_eq_map]
    simp only [Nat.add_le_add_iff_right]
    split <;> rfl

section Texts

variable [Library] [LawfulLibrary]

/-- A decoder reads what the encoder writes for an operation, wherever this fits into the nesting
that is left. -/
theorem decodes_encodeOperation {op : Operation Float} (inRange : OperationInRange op) :
    Decodes decodeOperation (encodeOperation op) op := by
  induction inRange with
  | standard gate =>
      exact .choice Operation.standard rfl (fun _ => rfl)
        (decodes_encodeGate (fun _ => decodes_ofFloat) gate)
  | symbolic gate =>
      exact .choice Operation.symbolic rfl (fun _ => rfl)
        (decodes_encodeGate (fun _ => decodes_encodeParameter) gate)
  | nonUnitary effect =>
      exact .choice Operation.nonUnitary rfl (fun _ => rfl)
        (decodes_encodeNonUnitary effect)
  | conditioned _ condition ih => exact decodes_conditioned ih condition
  | compound _ ih => exact decodes_compound ih

/-! ## Texts -/

/-- Reading the text of a value is reading the value. -/
theorem decodeText?_text {α : Type} {d : Decoder α} {j : Json} {a : α} (reads : Decodes d j a) :
    decodeText? d j.text = if j.depth ≤ Library.maxNesting then some a else none := by
  rw [decodeText?, LawfulLibrary.parse?_text, Option.bind_some, reads]

end Texts

/-- Blocks in blocks. -/
def nestedBlocks : Nat → Operation Float
  | 0 => .compound []
  | n + 1 => .compound [nestedBlocks n]

theorem inRange_nestedBlocks (n : Nat) : OperationInRange (nestedBlocks n) := by
  induction n with
  | zero => exact .compound fun _ mem => absurd mem List.not_mem_nil
  | succ n ih => exact .compound (List.forall_mem_singleton.mpr ih)

/-- Each block takes an object for the choice, an object for the structure, and an array. -/
theorem depth_nestedBlocks [Library] (n : Nat) :
    (encodeOperation (nestedBlocks n)).depth = 3 * (n + 1) := by
  induction n with
  | zero => rfl
  | succ n ih =>
      rw [nestedBlocks, encodeOperation]
      simp only [encodeOperations, depth, depthOfMembers, depthOfItems, Nat.max_zero, ih]
      rfl

/-- Whichever limit a library sets to the nesting, enough blocks in each other are not read back. -/
theorem decodeText?_nestedBlocks_eq_none [Library] [LawfulLibrary] {n : Nat}
    (deep : Library.maxNesting < 3 * (n + 1)) :
    decodeText? decodeOperation (encodeOperation (nestedBlocks n)).text = none := by
  rw [← depth_nestedBlocks] at deep
  exact (decodeText?_text (decodes_encodeOperation (inRange_nestedBlocks n))).trans
    (if_neg (Nat.not_le.mpr deep))

end QuantumCircuit.Codec
