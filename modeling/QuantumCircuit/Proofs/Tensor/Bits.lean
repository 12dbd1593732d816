import Mathlib.Data.List.Nodup
import Mathlib.Tactic.Ring
import QuantumCircuit.Tensor.Dense

/-!
# Bits of basis states

The operator of a gate is described bit by bit.  `gather` reads a number off the bits of some
qubits and `scatter` writes one over them, so among the numbers that can be written over the
targets of a column only the one that is read off the row gives the row.
-/

namespace QuantumCircuit.DenseOperator

/-! ## Reading -/

/-- The number that bits spell, the first one most significant. -/
def spelled (bits : List Bool) : Nat :=
  bits.foldl (fun acc bit => 2 * acc + bit.toNat) 0

theorem spelled_append (high low : List Bool) :
    spelled (high ++ low) = 2 ^ low.length * spelled high + spelled low := by
  have fold : ∀ (l : List Bool) (acc : Nat),
      l.foldl (fun acc bit => 2 * acc + bit.toNat) acc = 2 ^ l.length * acc + spelled l := by
    intro l
    induction l with
    | nil => intro acc; simp [spelled]
    | cons bit rest ih =>
        intro acc
        rw [spelled, List.foldl_cons, List.foldl_cons, ih, ih, List.length_cons, Nat.pow_succ]
        ring
  rw [spelled, List.foldl_append, fold]
  rfl

/-- What is read is what the bits of the qubits spell. -/
theorem gather_eq_spelled (qubits : List Nat) (state : Nat) :
    gather qubits state = spelled (qubits.map state.testBit) := by
  rw [spelled, List.foldl_map]
  rfl

/-- The first qubit is the most significant bit of what is read. -/
theorem gather_cons (q : Nat) (rest : List Nat) (state : Nat) :
    gather (q :: rest) state =
      2 ^ rest.length * (state.testBit q).toNat + gather rest state := by
  have first : spelled [state.testBit q] = (state.testBit q).toNat := Nat.zero_add _
  rw [gather_eq_spelled, gather_eq_spelled, List.map_cons, ← List.singleton_append, spelled_append,
    first, List.length_map]

theorem gather_lt (qubits : List Nat) (state : Nat) :
    gather qubits state < 2 ^ qubits.length := by
  induction qubits with
  | nil => exact Nat.one_pos
  | cons q rest ih =>
      have bit : (state.testBit q).toNat ≤ 1 := Bool.toNat_le _
      have most : 2 ^ rest.length * (state.testBit q).toNat ≤ 2 ^ rest.length * 1 :=
        Nat.mul_le_mul_left _ bit
      rw [gather_cons, List.length_cons, Nat.pow_succ]
      omega

/-- The bits of what is read, from the last qubit on. -/
theorem testBit_gather (qubits : List Nat) (state i : Nat) :
    (gather qubits state).testBit i = (qubits.reverse[i]?).any fun q => state.testBit q := by
  induction qubits generalizing i with
  | nil => simp [gather]
  | cons q rest ih =>
      rw [gather_cons, Nat.testBit_two_pow_mul_add _ (gather_lt rest state), List.reverse_cons,
        List.getElem?_append, List.length_reverse, ih]
      split
      · rfl
      · rw [Nat.testBit_bool_toNat]
        cases i - rest.length with
        | zero => simp
        | succ k => simp

/-- Two states read alike if they agree on the qubits. -/
theorem gather_eq_iff {qubits : List Nat} {state state' : Nat} :
    gather qubits state = gather qubits state' ↔
      ∀ q ∈ qubits, state.testBit q = state'.testBit q := by
  constructor
  · intro same q mem
    rcases List.mem_iff_getElem?.mp (List.mem_reverse.mpr mem) with ⟨i, found⟩
    have bits := congrArg (fun bits => bits.testBit i) same
    simpa [testBit_gather, found] using bits
  · intro agree
    apply Nat.eq_of_testBit_eq
    intro i
    rw [testBit_gather, testBit_gather]
    cases found : qubits.reverse[i]? with
    | none => rfl
    | some q => exact agree q (List.mem_reverse.mp (List.mem_of_getElem? found))

/-- Reading under new names for the qubits and their bits. -/
theorem gather_map {f : Nat → Nat} {qubits : List Nat} {state state' : Nat}
    (agree : ∀ q ∈ qubits, state'.testBit (f q) = state.testBit q) :
    gather (qubits.map f) state' = gather qubits state := by
  induction qubits with
  | nil => rfl
  | cons q rest ih =>
      rw [List.map_cons, gather_cons, gather_cons, List.length_map, agree q List.mem_cons_self,
        ih fun q mem => agree q (List.mem_cons_of_mem _ mem)]

/-! ## Writing -/

theorem testBit_clearBit (state q i : Nat) :
    (clearBit state q).testBit i = (state.testBit i && decide (i ≠ q)) := by
  rw [clearBit, Nat.testBit_xor, Nat.testBit_and, Nat.one_shiftLeft, Nat.testBit_two_pow]
  by_cases same : i = q
  · simp [same]
  · have other : ¬ q = i := fun equal => same equal.symm
    simp [same, other]

theorem testBit_clear (targets : List Nat) (state i : Nat) :
    (clear targets state).testBit i = (state.testBit i && decide (i ∉ targets)) := by
  rw [clear]
  induction targets generalizing state with
  | nil => simp
  | cons q rest ih =>
      rw [List.foldl_cons, ih, testBit_clearBit]
      by_cases same : i = q
      · simp [same]
      · simp [same]

/-- A bit that is put on a qubit. -/
theorem testBit_place (bit : Bool) (state q i : Nat) :
    (if bit then state ||| 1 <<< q else state).testBit i =
      (state.testBit i || (bit && decide (i = q))) := by
  cases bit with
  | false => simp
  | true =>
      rw [if_pos rfl, Nat.testBit_or, Nat.one_shiftLeft, Nat.testBit_two_pow, Bool.true_and]
      simp only [eq_comm]

/-- Only the targets are written over. -/
theorem testBit_scatter_of_not_mem {targets : List Nat} {i : Nat} (other : i ∉ targets)
    (bits state : Nat) : (scatter targets bits state).testBit i = state.testBit i := by
  induction targets generalizing state with
  | nil => rfl
  | cons q rest ih =>
      have notHead : i ≠ q := List.ne_of_not_mem_cons other
      rw [scatter, ih (List.not_mem_of_not_mem_cons other), testBit_place, decide_eq_false notHead,
        Bool.and_false, Bool.or_false]

/-- What is written over distinct targets is read back. -/
theorem gather_scatter {targets : List Nat} (distinct : targets.Nodup) (bits : Nat) {state : Nat}
    (free : ∀ q ∈ targets, state.testBit q = false) :
    gather targets (scatter targets bits state) = bits % 2 ^ targets.length := by
  induction targets generalizing state with
  | nil =>
      rw [List.length_nil, Nat.pow_zero, Nat.mod_one]
      rfl
  | cons q rest ih =>
      rcases List.nodup_cons.mp distinct with ⟨notMem, distinctRest⟩
      have freeRest : ∀ r ∈ rest,
          (if bits.testBit rest.length then state ||| 1 <<< q else state).testBit r = false := by
        intro r mem
        have other : r ≠ q := by
          rintro rfl
          exact notMem mem
        rw [testBit_place, free r (List.mem_cons_of_mem _ mem), decide_eq_false other,
          Bool.and_false, Bool.or_false]
      rw [scatter, gather_cons, testBit_scatter_of_not_mem notMem, testBit_place,
        free q List.mem_cons_self, decide_eq_true rfl, Bool.and_true, Bool.false_or,
        ih distinctRest freeRest, List.length_cons, Nat.mod_pow_succ, Nat.toNat_testBit,
        Nat.add_comm]

/-- Two states are cleared alike if they agree on all other qubits. -/
theorem clear_eq_iff {qubits : List Nat} {state state' : Nat} :
    clear qubits state = clear qubits state' ↔
      ∀ q, q ∉ qubits → state.testBit q = state'.testBit q := by
  constructor
  · intro same q other
    have bits := congrArg (fun bits => bits.testBit q) same
    simpa [testBit_clear, other] using bits
  · intro agree
    apply Nat.eq_of_testBit_eq
    intro q
    rw [testBit_clear, testBit_clear]
    by_cases mem : q ∈ qubits
    · simp [mem]
    · rw [agree q mem]

/-- A state consists of the bits that are read and of those that are left by clearing. -/
theorem eq_iff_clear_gather (qubits : List Nat) {state state' : Nat} : state = state' ↔
    clear qubits state = clear qubits state' ∧ gather qubits state = gather qubits state' := by
  constructor
  · rintro rfl
    exact ⟨rfl, rfl⟩
  · rintro ⟨cleared, read⟩
    apply Nat.eq_of_testBit_eq
    intro q
    by_cases mem : q ∈ qubits
    · exact gather_eq_iff.mp read q mem
    · exact clear_eq_iff.mp cleared q mem

/-- Whether writing a number over the targets of a column gives a row. -/
theorem scatter_clear_eq_iff {targets : List Nat} (distinct : targets.Nodup) {bits row col : Nat}
    (bounded : bits < 2 ^ targets.length) : scatter targets bits (clear targets col) = row ↔
      clear targets row = clear targets col ∧ bits = gather targets row := by
  have free : ∀ q ∈ targets, (clear targets col).testBit q = false := by
    intro q mem
    rw [testBit_clear, decide_eq_false (fun notMem => notMem mem), Bool.and_false]
  have outside : clear targets (scatter targets bits (clear targets col)) = clear targets col := by
    apply clear_eq_iff.mpr
    intro q other
    rw [testBit_scatter_of_not_mem other, testBit_clear, decide_eq_true other, Bool.and_true]
  have inside : gather targets (scatter targets bits (clear targets col)) = bits := by
    rw [gather_scatter distinct bits free, Nat.mod_eq_of_lt bounded]
  constructor
  · rintro rfl
    exact ⟨outside, inside.symm⟩
  · rintro ⟨cleared, rfl⟩
    exact (eq_iff_clear_gather targets).mpr ⟨outside.trans cleared.symm, inside⟩

/-- Among the numbers that can be written over the targets of a column, only the one that is read
off a row can give the row. -/
theorem find?_scatter {targets : List Nat} (distinct : targets.Nodup) (row col : Nat) :
    (List.range (numStates targets.length)).reverse.find?
        (fun bits => scatter targets bits (clear targets col) == row) =
      if clear targets row = clear targets col then some (gather targets row) else none := by
  have writes : ∀ bits ∈ (List.range (numStates targets.length)).reverse,
      (scatter targets bits (clear targets col) == row) = true ↔
        clear targets row = clear targets col ∧ bits = gather targets row := by
    intro bits mem
    rw [List.mem_reverse, List.mem_range] at mem
    rw [beq_iff_eq, scatter_clear_eq_iff distinct mem]
  have candidate : gather targets row ∈ (List.range (numStates targets.length)).reverse :=
    List.mem_reverse.mpr (List.mem_range.mpr (gather_lt targets row))
  cases found : (List.range (numStates targets.length)).reverse.find?
      (fun bits => scatter targets bits (clear targets col) == row) with
  | none =>
      have fails := List.find?_eq_none.mp found _ candidate
      rw [writes _ candidate] at fails
      rw [if_neg fun cleared => fails ⟨cleared, rfl⟩]
  | some bits =>
      have passes := List.find?_some found
      rw [writes bits (List.mem_of_find?_eq_some found)] at passes
      rw [if_pos passes.1, passes.2]

end QuantumCircuit.DenseOperator
