import Mathlib.Data.List.Perm.Subperm
import QuantumCircuit.Proofs.Reorder.Swaps

/-!
# Sweeping over the qubits

Another way to the canonical order simulates the rounds.  Every qubit has a chain, the positions of
the operations that touch it, and a cursor into its chain.  In its turn a qubit emits the operation
at its cursor if that operation is at the cursors of all of its qubits, and these cursors advance.
Rounds are swept until one emits nothing.

When the turn of a slot comes, exactly the operations with earlier slots have been emitted, in the
order of their slots.  So the sweep comes to rest, and it emits the operations in canonical order.
-/

namespace QuantumCircuit

open SortedMap

variable {S : Type}

/-- A state of the sweep. -/
structure Sweep where
  /-- How far each qubit is in its chain. -/
  cursors : Nat → Nat
  /-- The positions that have been emitted. -/
  order : List Nat

namespace Sweep

/-! ## The algorithm -/

/-- The qubits of the operation at a position. -/
def qubitsAt (ops : List (Operation S)) (i : Nat) : List Nat :=
  match ops[i]? with
  | some op => op.usedQubits.keys
  | none => []

/-- One more than the greatest qubit of all operations, and zero if there is none. -/
def width (ops : List (Operation S)) : Nat :=
  match (ops.flatMap fun op => op.usedQubits.keys).max? with
  | some q => q + 1
  | none => 0

/-- The positions of the operations that touch a qubit. -/
def chain (ops : List (Operation S)) (q : Nat) : List Nat :=
  (List.range ops.length).filter fun i => (qubitsAt ops i).contains q

/-- The position at the cursor of a qubit. -/
def pending? (ops : List (Operation S)) (s : Sweep) (q : Nat) : Option Nat :=
  (chain ops q)[s.cursors q]?

/-- Whether a position is at the cursors of all of its qubits. -/
def ready (ops : List (Operation S)) (s : Sweep) (i : Nat) : Bool :=
  (qubitsAt ops i).all fun q => s.pending? ops q == some i

/-- Emits a position and advances the cursors of its qubits. -/
def emit (ops : List (Operation S)) (s : Sweep) (i : Nat) : Sweep where
  cursors q := if (qubitsAt ops i).contains q then s.cursors q + 1 else s.cursors q
  order := s.order ++ [i]

/-- The turn of a qubit. -/
def turn (ops : List (Operation S)) (s : Sweep) (q : Nat) : Sweep :=
  match s.pending? ops q with
  | some i => if s.ready ops i then s.emit ops i else s
  | none => s

/-- A round of turns. -/
def round (ops : List (Operation S)) (s : Sweep) : Sweep :=
  (List.range (width ops)).foldl (turn ops) s

/-- Sweeps until a round emits nothing; none if that takes more than `n` rounds. -/
def rest? (ops : List (Operation S)) : Nat → Sweep → Option Sweep
  | 0, _ => none
  | n + 1, s =>
      let next := s.round ops
      if next.order.length = s.order.length then some next else rest? ops n next

/-- The state in which nothing has been emitted. -/
def start : Sweep :=
  ⟨fun _ => 0, []⟩

/-- The emitted operations, and then the others in program order. -/
def result (ops : List (Operation S)) (s : Sweep) : List (Operation S) :=
  (s.order ++ (List.range ops.length).filter fun i => !s.order.contains i).filterMap
    fun i => ops[i]?

/-! ## Slots of positions -/

/-- Whether the operation at a position takes a slot. -/
def Takes (ops : List (Operation S)) (i : Nat) (s : Slot) : Prop :=
  (Timetable.slots .empty ops)[i]? = some (some s)

variable {ops : List (Operation S)} {i j q : Nat} {s u : Slot}

theorem qubitsAt_of_getElem? {op : Operation S} (found : ops[i]? = some op) :
    qubitsAt ops i = op.usedQubits.keys := by
  rw [qubitsAt, found]

theorem exists_of_mem_qubitsAt (mem : q ∈ qubitsAt ops i) :
    ∃ op, ops[i]? = some op ∧ q ∈ op.usedQubits.keys := by
  rw [qubitsAt] at mem
  cases found : ops[i]? with
  | none => simp [found] at mem
  | some op => exact ⟨op, rfl, by simpa [found] using mem⟩

theorem lt_length_of_mem_qubitsAt (mem : q ∈ qubitsAt ops i) : i < ops.length := by
  rcases exists_of_mem_qubitsAt mem with ⟨op, found, _⟩
  exact (List.getElem?_eq_some_iff.mp found).1

theorem lt_width_of_mem_qubitsAt (mem : q ∈ qubitsAt ops i) : q < width ops := by
  rcases exists_of_mem_qubitsAt mem with ⟨op, found, mem⟩
  have listed : q ∈ ops.flatMap fun op => op.usedQubits.keys :=
    List.mem_flatMap.mpr ⟨op, List.mem_of_getElem? found, mem⟩
  rw [width]
  cases greatest : (ops.flatMap fun op => op.usedQubits.keys).max? with
  | none =>
      rw [List.max?_eq_none_iff.mp greatest] at listed
      contradiction
  | some m =>
      exact Nat.lt_succ_of_le ((List.max?_eq_some_iff.mp greatest).2 q listed)

theorem Takes.exists_getElem? (takes : Takes ops i s) : ∃ op, ops[i]? = some op := by
  have below := (List.getElem?_eq_some_iff.mp takes).1
  rw [Timetable.length_slots] at below
  exact ⟨ops[i], List.getElem?_eq_getElem below⟩

theorem Takes.lt_length (takes : Takes ops i s) : i < ops.length := by
  rcases takes.exists_getElem? with ⟨op, found⟩
  exact (List.getElem?_eq_some_iff.mp found).1

theorem Takes.unique (takes : Takes ops i s) (takes' : Takes ops i u) : s = u := by
  rw [Takes, takes] at takes'
  exact Option.some.inj (Option.some.inj takes')

theorem Takes.qubit_mem (takes : Takes ops i s) : s.qubit ∈ qubitsAt ops i := by
  rcases takes.exists_getElem? with ⟨op, found⟩
  rw [qubitsAt_of_getElem? found]
  exact Timetable.qubit_mem_of_slots takes found

/-- Every operation that touches a qubit takes a slot. -/
theorem exists_takes (mem : q ∈ qubitsAt ops i) : ∃ s, Takes ops i s := by
  rcases exists_of_mem_qubitsAt mem with ⟨op, found, mem⟩
  have below := (List.getElem?_eq_some_iff.mp found).1
  rw [← Timetable.length_slots .empty] at below
  cases slot : (Timetable.slots .empty ops)[i] with
  | none =>
      have none := (Timetable.slots_eq_none_iff (t := .empty) found).mp
        (by rw [List.getElem?_eq_getElem below, slot])
      rw [none] at mem
      contradiction
  | some s => exact ⟨s, by rw [Takes, List.getElem?_eq_getElem below, slot]⟩

theorem Takes.lt (takes : Takes ops i s) (takes' : Takes ops j u) (before : i < j)
    (mem : q ∈ qubitsAt ops i) (mem' : q ∈ qubitsAt ops j) : s < u := by
  rcases takes.exists_getElem? with ⟨a, foundI⟩
  rcases takes'.exists_getElem? with ⟨b, foundJ⟩
  rw [qubitsAt_of_getElem? foundI] at mem
  rw [qubitsAt_of_getElem? foundJ] at mem'
  exact Timetable.lt_of_slots before takes foundI takes' foundJ mem mem'

theorem Takes.injective (takes : Takes ops i s) (takes' : Takes ops j s) : i = j := by
  rcases Nat.lt_trichotomy i j with before | same | after
  · exact absurd (takes.lt takes' before takes.qubit_mem takes'.qubit_mem) (Slot.lt_irrefl s)
  · exact same
  · exact absurd (takes'.lt takes after takes'.qubit_mem takes.qubit_mem) (Slot.lt_irrefl s)

/-- An operation lets a turn of one of its qubits pass only because of an earlier operation that has
not had its turn yet. -/
theorem Takes.exists_earlier (takes : Takes ops j s) (own : u.qubit ∈ qubitsAt ops j)
    (before : u < s) : ∃ i < j, ∃ v, Takes ops i v ∧ u ≤ v ∧
      ∃ q ∈ qubitsAt ops j, q ∈ qubitsAt ops i := by
  rcases takes.exists_getElem? with ⟨b, foundJ⟩
  rw [qubitsAt_of_getElem? foundJ] at own
  rcases Timetable.exists_earlier takes foundJ own before with
    ⟨q, _, waits⟩ | ⟨i, less, a, v, foundI, slotI, le, q, memB, memA⟩
  · rw [Timetable.free_empty] at waits
    exact absurd (Slot.lt_of_le_of_lt (Slot.first_le u) waits) (Slot.lt_irrefl _)
  · refine ⟨i, less, v, slotI, le, q, ?_, ?_⟩
    · rw [qubitsAt_of_getElem? foundJ]
      exact memB
    · rw [qubitsAt_of_getElem? foundI]
      exact memA

/-- No round is left out: if an operation has its turn in some round, another has it in each round
before. -/
theorem Takes.exists_round (takes : Takes ops j s) {r : Nat} (later : r ≤ s.round) :
    ∃ i v, Takes ops i v ∧ v.round = r := by
  induction j using Nat.strongRecOn generalizing s with
  | ind j ih =>
      rcases Nat.eq_or_lt_of_le later with same | less
      · exact ⟨j, s, takes, same.symm⟩
      · have own : (⟨r, s.qubit⟩ : Slot).qubit ∈ qubitsAt ops j := takes.qubit_mem
        rcases takes.exists_earlier own (.inl less) with ⟨i, before, v, takesI, le, _⟩
        apply ih i before takesI
        rw [Slot.le_def] at le
        dsimp only at le
        omega

/-! ## The invariant -/

/-- The state when the turn of a slot comes. -/
structure Reached (ops : List (Operation S)) (state : Sweep) (s : Slot) : Prop where
  /-- Exactly the operations with earlier slots have been emitted. -/
  mem_order : ∀ {i}, i ∈ state.order ↔ ∃ u, Takes ops i u ∧ u < s
  /-- They have been emitted in the order of their slots. -/
  ascending : state.order.Pairwise fun i j => ∃ u v, Takes ops i u ∧ Takes ops j v ∧ u < v
  /-- Behind the cursor of a qubit is what has not been emitted of its chain. -/
  cursors : ∀ q, (chain ops q).drop (state.cursors q) =
    (chain ops q).filter fun i => !state.order.contains i

variable {state : Sweep}

theorem nodup_chain (ops : List (Operation S)) (q : Nat) : (chain ops q).Nodup :=
  List.nodup_range.filter _

theorem reached_start (ops : List (Operation S)) : Reached ops start .first where
  mem_order {i} := by
    constructor
    · intro mem
      contradiction
    · rintro ⟨u, _, before⟩
      exact absurd (Slot.lt_of_le_of_lt (Slot.first_le u) before) (Slot.lt_irrefl _)
  ascending := .nil
  cursors q := by simp [start]

/-- At its cursor a qubit has the first of its operations that has not been emitted. -/
theorem Reached.pending?_eq_some_iff (reached : Reached ops state s) :
    state.pending? ops q = some i ↔ q ∈ qubitsAt ops i ∧ i ∉ state.order ∧
      ∀ j < i, q ∈ qubitsAt ops j → j ∈ state.order := by
  rw [pending?, ← List.head?_drop, reached.cursors, List.head?_filter, chain, List.find?_filter,
    List.find?_range_eq_some]
  simp only [List.contains_iff_mem, Bool.not_eq_true', decide_eq_true_eq, List.mem_range]
  constructor
  · rintro ⟨⟨mem, pending⟩, _, earlier⟩
    refine ⟨mem, by simpa using pending, fun j before memJ => ?_⟩
    simpa [memJ] using earlier j before
  · rintro ⟨mem, pending, earlier⟩
    refine ⟨⟨mem, by simpa using pending⟩, lt_length_of_mem_qubitsAt mem, fun j before => ?_⟩
    simpa using earlier j before

/-- In the turn of its slot an operation is ready. -/
theorem Reached.ready_of_takes (reached : Reached ops state s) (takes : Takes ops i s) {q : Nat}
    (mem : q ∈ qubitsAt ops i) : state.pending? ops q = some i := by
  refine reached.pending?_eq_some_iff.mpr ⟨mem, fun emitted => ?_, fun j before memJ => ?_⟩
  · rcases reached.mem_order.mp emitted with ⟨u, takes', less⟩
    rw [takes.unique takes'] at less
    exact Slot.lt_irrefl u less
  · rcases exists_takes memJ with ⟨u, takesJ⟩
    exact reached.mem_order.mpr ⟨u, takesJ, takesJ.lt takes before memJ mem⟩

/-- In the turn of a slot that no operation takes, none is ready. -/
theorem Reached.takes_of_ready (reached : Reached ops state s) (mem : s.qubit ∈ qubitsAt ops i)
    (ready : ∀ q ∈ qubitsAt ops i, state.pending? ops q = some i) : Takes ops i s := by
  rcases exists_takes mem with ⟨u, takes⟩
  have pending := (reached.pending?_eq_some_iff.mp (ready s.qubit mem)).2.1
  have notBefore : s ≤ u := by
    by_contra before
    exact pending (reached.mem_order.mpr ⟨u, takes, Slot.not_le.mp before⟩)
  rcases Slot.lt_or_eq_of_le notBefore with later | same
  · rcases takes.exists_earlier mem later with ⟨j, before, v, takesJ, le, q, memI, memJ⟩
    have emitted := (reached.pending?_eq_some_iff.mp (ready q memI)).2.2 j before memJ
    rcases reached.mem_order.mp emitted with ⟨w, takesJ', less⟩
    rw [takesJ.unique takesJ'] at le
    exact absurd (Slot.lt_of_le_of_lt le less) (Slot.lt_irrefl s)
  · rw [same]
    exact takes

/-- Time passes as long as no operation has its turn. -/
theorem Reached.shift {t : Slot} (reached : Reached ops state s)
    (same : ∀ {i u}, Takes ops i u → (u < s ↔ u < t)) : Reached ops state t where
  mem_order {i} := by
    rw [reached.mem_order]
    constructor
    · rintro ⟨u, takes, before⟩
      exact ⟨u, takes, (same takes).mp before⟩
    · rintro ⟨u, takes, before⟩
      exact ⟨u, takes, (same takes).mpr before⟩
  ascending := reached.ascending
  cursors := reached.cursors

/-- A slot that no operation takes passes. -/
theorem Reached.pass (reached : Reached ops state s) (free : ∀ i, ¬ Takes ops i s) :
    Reached ops state s.next := by
  refine reached.shift fun {i u} takes => ?_
  rw [Slot.lt_next_iff]
  constructor
  · exact Slot.le_of_lt
  · intro le
    rcases Slot.lt_or_eq_of_le le with before | rfl
    · exact before
    · exact absurd takes (free i)

theorem filter_ne_of_not_mem {l : List Nat} (absent : i ∉ l) :
    l.filter (fun j => decide (j ≠ i)) = l := by
  apply List.filter_eq_self.mpr
  intro j mem
  have other : j ≠ i := by
    rintro rfl
    exact absent mem
  exact decide_eq_true other

/-- The cursors that advance leave out the operation that is emitted, and the others did not have
it. -/
theorem Reached.cursors_emit (reached : Reached ops state s) (takes : Takes ops i s) (q : Nat) :
    (chain ops q).drop ((state.emit ops i).cursors q) =
      (chain ops q).filter fun j => !(state.emit ops i).order.contains j := by
  have left : ∀ j, (!(state.order ++ [i]).contains j) =
      (decide (j ≠ i) && !state.order.contains j) := by
    intro j
    by_cases same : j = i
    · simp [same]
    · simp [same]
  change (chain ops q).drop (if (qubitsAt ops i).contains q then _ else _) =
    (chain ops q).filter fun j => !(state.order ++ [i]).contains j
  simp only [left]
  rw [← List.filter_filter, ← reached.cursors]
  split
  · next mem =>
      have here := reached.ready_of_takes takes (List.contains_iff_mem.mp mem)
      rw [pending?, ← List.head?_drop] at here
      rcases List.head?_eq_some_iff.mp here with ⟨rest, split⟩
      have nodup : (i :: rest).Nodup := by
        rw [← split]
        exact (List.drop_sublist _ _).nodup (nodup_chain ops q)
      rw [← List.drop_drop, split, List.drop_one, List.tail_cons, List.filter_cons,
        if_neg (by simp), filter_ne_of_not_mem (List.nodup_cons.mp nodup).1]
  · next absent =>
      have notListed : i ∉ (chain ops q).drop (state.cursors q) := fun later =>
        absent (List.mem_filter.mp (List.mem_of_mem_drop later)).2
      rw [filter_ne_of_not_mem notListed]

/-- The operation that takes a slot is emitted in its turn. -/
theorem Reached.emit (reached : Reached ops state s) (takes : Takes ops i s) :
    Reached ops (state.emit ops i) s.next where
  mem_order {j} := by
    change j ∈ state.order ++ [i] ↔ _
    rw [List.mem_append, List.mem_singleton, reached.mem_order]
    constructor
    · rintro (⟨u, takesJ, before⟩ | rfl)
      · exact ⟨u, takesJ, Slot.lt_next_iff.mpr (Slot.le_of_lt before)⟩
      · exact ⟨s, takes, Slot.lt_next s⟩
    · rintro ⟨u, takesJ, before⟩
      rcases Slot.lt_or_eq_of_le (Slot.lt_next_iff.mp before) with earlier | rfl
      · exact .inl ⟨u, takesJ, earlier⟩
      · exact .inr (takesJ.injective takes)
  ascending := by
    refine List.pairwise_append.mpr ⟨reached.ascending, List.pairwise_singleton _ _, ?_⟩
    intro j emitted k last
    obtain rfl := List.mem_singleton.mp last
    rcases reached.mem_order.mp emitted with ⟨u, takesJ, before⟩
    exact ⟨u, s, takesJ, takes, before⟩
  cursors := reached.cursors_emit takes

/-- One turn. -/
theorem Reached.turn (reached : Reached ops state s) :
    Reached ops (state.turn ops s.qubit) s.next := by
  rw [Sweep.turn]
  split
  · next i pending =>
      have own := (reached.pending?_eq_some_iff.mp pending).1
      split
      · next isReady =>
          refine reached.emit (reached.takes_of_ready own fun q mem => ?_)
          simpa using List.all_eq_true.mp isReady q mem
      · next notReady =>
          refine reached.pass fun j takes => notReady ?_
          have same := reached.ready_of_takes takes takes.qubit_mem
          obtain rfl := Option.some.inj (pending.symm.trans same)
          apply List.all_eq_true.mpr
          intro q mem
          rw [reached.ready_of_takes takes mem, beq_self_eq_true]
  · next none =>
      apply reached.pass
      intro j takes
      rw [reached.ready_of_takes takes takes.qubit_mem] at none
      contradiction

/-- One round. -/
theorem Reached.round {r : Nat} (reached : Reached ops state ⟨r, 0⟩) :
    Reached ops (state.round ops) ⟨r + 1, 0⟩ := by
  have turns : ∀ k, Reached ops ((List.range k).foldl (Sweep.turn ops) state) ⟨r, k⟩ := by
    intro k
    induction k with
    | zero => exact reached
    | succ k ih =>
        rw [List.range_succ, List.foldl_append]
        exact ih.turn
  refine (turns (width ops)).shift fun {i u} takes => ?_
  have inside := lt_width_of_mem_qubitsAt takes.qubit_mem
  rw [Slot.lt_round_iff, Slot.lt_def]
  dsimp only
  omega

/-! ## Coming to rest -/

theorem Reached.nodup_order (reached : Reached ops state s) : state.order.Nodup := by
  refine reached.ascending.imp fun {i j} => ?_
  rintro ⟨u, v, takesI, takesJ, before⟩ rfl
  rw [takesI.unique takesJ] at before
  exact Slot.lt_irrefl v before

theorem Reached.length_order_le (reached : Reached ops state s) :
    state.order.length ≤ ops.length := by
  have inside : state.order ⊆ List.range ops.length := by
    intro i emitted
    rcases reached.mem_order.mp emitted with ⟨u, takes, _⟩
    exact List.mem_range.mpr takes.lt_length
  have bound := (List.subperm_of_subset reached.nodup_order inside).length_le
  rwa [List.length_range] at bound

/-- What has been emitted stays emitted. -/
theorem Reached.order_subset_round {r : Nat} (reached : Reached ops state ⟨r, 0⟩) :
    state.order ⊆ (state.round ops).order := by
  intro i emitted
  rcases reached.mem_order.mp emitted with ⟨u, takes, before⟩
  rw [Slot.lt_round_iff] at before
  exact reached.round.mem_order.mpr
    ⟨u, takes, Slot.lt_round_iff.mpr (Nat.lt_succ_of_lt before)⟩

/-- A round in which an operation has its turn emits something. -/
theorem Reached.length_lt_round {r : Nat} (reached : Reached ops state ⟨r, 0⟩)
    (takes : Takes ops i s) (now : s.round = r) :
    state.order.length < (state.round ops).order.length := by
  have notYet : i ∉ state.order := by
    intro emitted
    rcases reached.mem_order.mp emitted with ⟨u, takes', before⟩
    rw [takes'.unique takes, Slot.lt_round_iff] at before
    omega
  have emits : i ∈ (state.round ops).order :=
    reached.round.mem_order.mpr ⟨s, takes, Slot.lt_round_iff.mpr (by omega)⟩
  have inside : (i :: state.order) ⊆ (state.round ops).order :=
    List.cons_subset.mpr ⟨emits, reached.order_subset_round⟩
  exact (List.subperm_of_subset (reached.nodup_order.cons notYet) inside).length_le

/-- A round after the last turn of all operations emits nothing. -/
theorem Reached.length_round_eq {r : Nat} (reached : Reached ops state ⟨r, 0⟩)
    (all : ∀ {i u}, Takes ops i u → u < ⟨r, 0⟩) :
    (state.round ops).order.length = state.order.length := by
  refine Nat.le_antisymm ?_ ?_
  · refine (List.subperm_of_subset reached.round.nodup_order fun i emitted => ?_).length_le
    rcases reached.round.mem_order.mp emitted with ⟨u, takes, _⟩
    exact reached.mem_order.mpr ⟨u, takes, all takes⟩
  · exact (List.subperm_of_subset reached.nodup_order reached.order_subset_round).length_le

/-- With a round for each operation left and one more the sweep comes to rest, and then every
operation that touches a qubit has been emitted. -/
theorem Reached.exists_rest {r n : Nat} (reached : Reached ops state ⟨r, 0⟩)
    (enough : ops.length < state.order.length + n) :
    ∃ last t, rest? ops n state = some last ∧ Reached ops last t ∧
      ∀ {i u}, Takes ops i u → u < t := by
  induction n generalizing state r with
  | zero => exact absurd reached.length_order_le (by omega)
  | succ n ih =>
      rw [rest?]
      by_cases pending : ∃ i u, Takes ops i u ∧ r ≤ u.round
      · rcases pending with ⟨i, u, takes, later⟩
        rcases takes.exists_round later with ⟨j, v, takesJ, now⟩
        have more := reached.length_lt_round takesJ now
        rw [if_neg (Nat.ne_of_gt more)]
        exact ih reached.round (by omega)
      · have all : ∀ {i u}, Takes ops i u → u < ⟨r, 0⟩ := by
          intro i u takes
          rw [Slot.lt_round_iff]
          exact Nat.lt_of_not_le fun later => pending ⟨i, u, takes, later⟩
        rw [if_pos (reached.length_round_eq all)]
        refine ⟨_, ⟨r + 1, 0⟩, rfl, reached.round, fun takes => ?_⟩
        have before := Slot.lt_round_iff.mp (all takes)
        exact Slot.lt_round_iff.mpr (Nat.lt_succ_of_lt before)

/-! ## The result -/

/-- The operation at a position with the slot it takes. -/
def slotAndOp? (ops : List (Operation S)) (i : Nat) : Option (Slot × Operation S) :=
  (Timetable.slots .empty ops)[i]?.join.bind fun s => ops[i]?.map fun op => (s, op)

theorem slotAndOp?_eq_some_iff {op : Operation S} :
    slotAndOp? ops i = some (s, op) ↔ Takes ops i s ∧ ops[i]? = some op := by
  rw [slotAndOp?, Option.bind_eq_some_iff]
  simp only [Option.join_eq_some_iff, Option.map_eq_some_iff, Prod.mk.injEq]
  constructor
  · rintro ⟨u, takes, b, found, rfl, rfl⟩
    exact ⟨takes, found⟩
  · rintro ⟨takes, found⟩
    exact ⟨s, takes, op, found, rfl, rfl⟩

/-- Once all operations have been emitted, their entries are those that the assignment stores. -/
theorem Reached.entries_eq (reached : Reached ops state s)
    (all : ∀ {i u}, Takes ops i u → u < s) :
    state.order.filterMap (slotAndOp? ops) = (ofList (Timetable.assign .empty ops)).entries := by
  refine eq_of_mem_iff ?_ (ofList _).ascending ?_
  · refine List.pairwise_filterMap.mpr (reached.ascending.imp fun {i j} => ?_)
    rintro ⟨u, v, takesI, takesJ, before⟩ ⟨u', a⟩ entryI ⟨v', b⟩ entryJ
    rcases slotAndOp?_eq_some_iff.mp entryI with ⟨takesI', _⟩
    rcases slotAndOp?_eq_some_iff.mp entryJ with ⟨takesJ', _⟩
    rw [takesI.unique takesI', takesJ.unique takesJ'] at before
    exact Slot.compare_eq_lt_iff.mpr before
  · rintro ⟨u, op⟩
    rw [← find?_eq_some_iff, find?_ofList_eq_some_iff (Timetable.nodup_assign _ _),
      Timetable.mem_assign_iff, List.mem_filterMap]
    constructor
    · rintro ⟨i, _, entry⟩
      exact ⟨i, slotAndOp?_eq_some_iff.mp entry⟩
    · rintro ⟨i, takes, found⟩
      exact ⟨i, reached.mem_order.mpr ⟨u, takes, all takes⟩,
        slotAndOp?_eq_some_iff.mpr ⟨takes, found⟩⟩

/-- The items of a list at the positions at which they pass a test. -/
theorem filterMap_filter_range {α : Type} {l : List α} {f : α → Bool} {p : Nat → Bool}
    (agree : ∀ {i a}, l[i]? = some a → p i = f a) :
    ((List.range l.length).filter p).filterMap (fun i => l[i]?) = l.filter f := by
  induction l generalizing p with
  | nil => rfl
  | cons a l ih =>
      have rest := ih (p := fun i => p (i + 1)) fun {i b} found => agree (i := i + 1) found
      have here : p 0 = f a := agree (i := 0) rfl
      have shifted : (((List.range l.length).map Nat.succ).filter p).filterMap
          (fun i => (a :: l)[i]?) = l.filter f := by
        rw [List.filter_map, List.filterMap_map]
        exact rest
      rw [List.length_cons, List.range_succ_eq_map, List.filter_cons, List.filter_cons, here]
      split
      · rw [List.filterMap_cons, shifted]
        rfl
      · exact shifted

/-- Once all operations have been emitted, the result is the canonical order. -/
theorem Reached.result_eq (reached : Reached ops state s)
    (all : ∀ {i u}, Takes ops i u → u < s) : state.result ops = Circuit.canonicalOrder ops := by
  rw [result, List.filterMap_append, Circuit.canonicalOrder]
  congr 1
  · rw [SortedMap.values, ← reached.entries_eq all, List.map_filterMap]
    apply List.filterMap_congr
    intro i emitted
    rcases reached.mem_order.mp emitted with ⟨u, takes, _⟩
    rcases takes.exists_getElem? with ⟨op, found⟩
    rw [slotAndOp?_eq_some_iff.mpr ⟨takes, found⟩, found, Option.map_some]
  · refine filterMap_filter_range fun {i op} found => ?_
    rw [Bool.eq_iff_iff, Bool.not_eq_true', isEmpty_usedQubits_iff, ← qubitsAt_of_getElem? found,
      Bool.eq_false_iff, Ne, List.contains_iff_mem]
    constructor
    · intro pending
      refine List.eq_nil_iff_forall_not_mem.mpr fun q mem => pending ?_
      rcases exists_takes mem with ⟨u, takes⟩
      exact reached.mem_order.mpr ⟨u, takes, all takes⟩
    · intro none emitted
      rcases reached.mem_order.mp emitted with ⟨u, takes, _⟩
      have own := takes.qubit_mem
      rw [none] at own
      contradiction

/-- The sweep comes to rest, and its result is the canonical order. -/
theorem exists_rest (ops : List (Operation S)) :
    ∃ last, rest? ops (ops.length + 1) start = some last ∧
      last.result ops = Circuit.canonicalOrder ops := by
  have enough : ops.length < start.order.length + (ops.length + 1) := by omega
  rcases (reached_start ops).exists_rest enough with ⟨last, t, rests, reached, all⟩
  exact ⟨last, rests, reached.result_eq all⟩

end Sweep

namespace Circuit

/-- The operations that are listed by slot are those that touch a qubit. -/
theorem touched_of_mem_values {ops : List (Operation S)} {op : Operation S}
    (mem : op ∈ (ofList (Timetable.assign .empty ops)).values) :
    op.usedQubits.isEmpty = false := by
  rcases List.mem_map.mp mem with ⟨⟨u, op⟩, stored, rfl⟩
  obtain ⟨i, slot, found⟩ :=
    Timetable.mem_assign_iff.mp (Timetable.mem_assign_of_mem_entries stored)
  rw [Bool.eq_false_iff, Ne, isEmpty_usedQubits_iff]
  exact List.ne_nil_of_mem (Timetable.qubit_mem_of_slots slot found)

/-- The sweep over the qubits comes to rest and puts the operations in canonical order.  That order
has the same operations, keeps those that share a qubit in their order, ends with those that touch
no qubit, and is the same for all lists that swaps of independent neighbours lead to. -/
theorem reorder_canonical (c : Circuit S) :
    (∃ last, Sweep.rest? c.ops (c.ops.length + 1) .start = some last ∧
      c.reorder = { c with ops := last.result c.ops }) ∧
    c.ops.Perm c.reorder.ops ∧
    (∃ σ, Rearranges σ c.ops c.reorder.ops) ∧
    (∃ busy, c.reorder.ops = busy ++ c.ops.filter (fun op => op.usedQubits.isEmpty) ∧
      ∀ op ∈ busy, op.usedQubits.isEmpty = false) ∧
    (∀ ops, Swaps c.ops ops → ({ c with ops } : Circuit S).reorder = c.reorder) ∧
    c.reorder.reorder = c.reorder := by
  have reached : Swaps c.ops c.reorder.ops := swaps_canonicalOrder c.ops
  have canonical : ∀ ops, Swaps c.ops ops → ({ c with ops } : Circuit S).reorder = c.reorder := by
    intro ops swaps
    rw [reorder, reorder, canonicalOrder_of_swaps swaps]
  refine ⟨?_, perm_of_swaps reached, exists_rearranges reached,
    ⟨_, rfl, fun _ mem => touched_of_mem_values mem⟩, canonical, canonical _ reached⟩
  rcases Sweep.exists_rest c.ops with ⟨last, rests, result⟩
  refine ⟨last, rests, ?_⟩
  rw [reorder, result]

end Circuit

end QuantumCircuit
