import Mathlib.Data.List.Sort
import Mathlib.Tactic.SplitIfs
import QuantumCircuit.Circuit.Reorder
import QuantumCircuit.Proofs.SortedMap

/-!
# Slots and timetables

Slots are ordered by round and then by qubit.  The slot that an operation takes is the least slot of
one of its qubits from which on all of its qubits are free.  From this follow the three laws of the
assignment: an operation has a slot of its own qubits, operations that share a qubit have slots in
program order, and no slot before the assigned one would do.
-/

namespace QuantumCircuit

open SortedMap

/-! ## The order of slots -/

namespace Slot

instance : LT Slot :=
  ⟨fun s t => s.round < t.round ∨ s.round = t.round ∧ s.qubit < t.qubit⟩

instance : LE Slot :=
  ⟨fun s t => s.round < t.round ∨ s.round = t.round ∧ s.qubit ≤ t.qubit⟩

theorem lt_def {s t : Slot} :
    s < t ↔ s.round < t.round ∨ s.round = t.round ∧ s.qubit < t.qubit :=
  Iff.rfl

theorem le_def {s t : Slot} :
    s ≤ t ↔ s.round < t.round ∨ s.round = t.round ∧ s.qubit ≤ t.qubit :=
  Iff.rfl

theorem ext_iff' {s t : Slot} : s = t ↔ s.round = t.round ∧ s.qubit = t.qubit := by
  cases s
  cases t
  simp

theorem le_refl (s : Slot) : s ≤ s :=
  .inr ⟨rfl, Nat.le_refl _⟩

theorem le_trans {s t u : Slot} (first : s ≤ t) (second : t ≤ u) : s ≤ u := by
  rw [le_def] at *
  omega

theorem lt_of_le_of_lt {s t u : Slot} (first : s ≤ t) (second : t < u) : s < u := by
  rw [le_def] at first
  rw [lt_def] at *
  omega

theorem le_of_lt {s t : Slot} (before : s < t) : s ≤ t := by
  rw [lt_def] at before
  rw [le_def]
  omega

theorem not_le {s t : Slot} : ¬ s ≤ t ↔ t < s := by
  rw [le_def, lt_def]
  omega

theorem lt_irrefl (s : Slot) : ¬ s < s := by
  rw [lt_def]
  omega

theorem lt_or_eq_of_le {s t : Slot} (le : s ≤ t) : s < t ∨ s = t := by
  rw [le_def] at le
  rw [lt_def, ext_iff']
  omega

theorem first_le (s : Slot) : first ≤ s := by
  rw [le_def, first]
  dsimp only
  omega

/-- The slots before a round are those of the rounds before. -/
theorem lt_round_iff {s : Slot} {r : Nat} : s < ⟨r, 0⟩ ↔ s.round < r := by
  rw [lt_def]
  dsimp only
  omega

theorem next_le_iff {s t : Slot} : s.next ≤ t ↔ s < t := by
  rw [le_def, lt_def, next]
  dsimp only
  omega

theorem lt_next_iff {s t : Slot} : s < t.next ↔ s ≤ t := by
  rw [le_def, lt_def, next]
  dsimp only
  omega

theorem lt_next (s : Slot) : s < s.next :=
  lt_next_iff.mpr (le_refl s)

/-- The order of slots is the order in which a map lists them. -/
theorem compare_eq_lt_iff {s t : Slot} : compare s t = .lt ↔ s < t := by
  change (compare s.round t.round).then (compare s.qubit t.qubit) = .lt ↔ _
  rw [Ordering.then_eq_lt, Nat.compare_eq_lt, Nat.compare_eq_eq, Nat.compare_eq_lt, lt_def]

theorem later_le_iff {s t u : Slot} : s.later t ≤ u ↔ s ≤ u ∧ t ≤ u := by
  rw [later]
  split
  · next before =>
      have le := le_of_lt (compare_eq_lt_iff.mp before)
      exact ⟨fun bound => ⟨le_trans le bound, bound⟩, And.right⟩
  · next after =>
      have le : t ≤ s := by
        rw [compare_eq_lt_iff, ← not_le, Classical.not_not] at after
        exact after
      exact ⟨fun bound => ⟨bound, le_trans le bound⟩, And.left⟩

/-- There is a turn as long as there are qubits. -/
theorem turn?_eq_none_iff {s : Slot} {qubits : List Nat} :
    s.turn? qubits = none ↔ qubits = [] := by
  rw [turn?]
  cases qubits with
  | nil => simp
  | cons q rest =>
      cases found : (q :: rest).find? fun q => s.qubit ≤ q with
      | none => simp
      | some q => simp

/-- The turn that is found is one of the given qubits, and the first one from the slot on. -/
theorem turn?_eq_some {s t : Slot} {qubits : List Nat} (ascending : qubits.Pairwise (· < ·))
    (found : s.turn? qubits = some t) :
    t.qubit ∈ qubits ∧ s ≤ t ∧ ∀ {u : Slot}, u.qubit ∈ qubits → s ≤ u → t ≤ u := by
  rw [turn?] at found
  cases search : qubits.find? fun q => s.qubit ≤ q with
  | some q =>
      rw [search] at found
      obtain rfl := Option.some.inj found
      rcases List.find?_eq_some_iff_append.mp search with ⟨holds, before, after, rfl, earlier⟩
      have least : s.qubit ≤ q := by simpa using holds
      refine ⟨by simp, .inr ⟨rfl, least⟩, fun {u} mem le => ?_⟩
      rw [le_def] at le ⊢
      rcases le with later | ⟨same, above⟩
      · exact .inl later
      · refine .inr ⟨same, ?_⟩
        rcases List.mem_append.mp mem with early | late
        · have below : ¬ s.qubit ≤ u.qubit := by simpa using earlier u.qubit early
          exact absurd above below
        · rcases List.mem_cons.mp late with equal | rest
          · exact Nat.le_of_eq equal.symm
          · have inOrder := (List.pairwise_append.mp ascending).2.1
            exact Nat.le_of_lt ((List.pairwise_cons.mp inOrder).1 u.qubit rest)
  | none =>
      rw [search] at found
      rcases Option.map_eq_some_iff.mp found with ⟨q, first, rfl⟩
      rcases List.head?_eq_some_iff.mp first with ⟨rest, rfl⟩
      refine ⟨List.mem_cons_self, .inl (Nat.lt_succ_self _), fun {u} mem le => ?_⟩
      have passed : ¬ s.qubit ≤ u.qubit := by simpa using List.find?_eq_none.mp search u.qubit mem
      rw [le_def] at le ⊢
      have least : q ≤ u.qubit := by
        rcases List.mem_cons.mp mem with equal | later
        · exact Nat.le_of_eq equal.symm
        · exact Nat.le_of_lt ((List.pairwise_cons.mp ascending).1 u.qubit later)
      dsimp only
      omega

end Slot

/-! ## Timetables -/

namespace Timetable

/-- The slot from which on a qubit is free. -/
def free (t : Timetable) (q : Nat) : Slot :=
  (t.find? q).getD .first

@[simp]
theorem free_empty (q : Nat) : free .empty q = .first :=
  rfl

theorem freeFrom_le_iff {t : Timetable} {qubits : List Nat} {s : Slot} :
    t.freeFrom qubits ≤ s ↔ ∀ q ∈ qubits, t.free q ≤ s := by
  have fold : ∀ u : Slot, qubits.foldl (fun s q => s.later (t.free q)) u ≤ s ↔
      u ≤ s ∧ ∀ q ∈ qubits, t.free q ≤ s := by
    induction qubits with
    | nil => simp
    | cons q rest ih =>
        intro u
        rw [List.foldl_cons, ih, Slot.later_le_iff, List.forall_mem_cons, and_assoc]
  rw [freeFrom]
  exact (fold .first).trans (and_iff_right (Slot.first_le s))

theorem find?_occupy (t : Timetable) (qubits : List Nat) (s : Slot) (q : Nat) :
    (t.occupy qubits s).find? q = if q ∈ qubits then some s.next else t.find? q := by
  rw [occupy]
  induction qubits generalizing t with
  | nil => simp
  | cons head rest ih =>
      rw [List.foldl_cons, ih, find?_insert]
      by_cases later : q ∈ rest
      · simp [later]
      · by_cases equal : q = head
        · simp [equal]
        · simp [later, equal]

theorem free_occupy (t : Timetable) (qubits : List Nat) (s : Slot) (q : Nat) :
    (t.occupy qubits s).free q = if q ∈ qubits then s.next else t.free q := by
  rw [free, find?_occupy]
  split <;> rfl

end Timetable

/-! ## Slots of operations -/

variable {S : Type}

theorem Operation.pairwise_usedQubits (op : Operation S) :
    op.usedQubits.keys.Pairwise (· < ·) :=
  List.pairwise_map.mpr (op.usedQubits.ascending.imp Nat.compare_eq_lt.mp)

namespace Timetable

/-- The slot that an operation takes, if it touches a qubit. -/
def slot? (t : Timetable) (op : Operation S) : Option Slot :=
  (t.freeFrom op.usedQubits.keys).turn? op.usedQubits.keys

variable {t : Timetable} {op : Operation S} {s : Slot}

theorem slot?_eq_none_iff : t.slot? op = none ↔ op.usedQubits.keys = [] :=
  Slot.turn?_eq_none_iff

theorem qubit_mem_of_slot? (taken : t.slot? op = some s) : s.qubit ∈ op.usedQubits.keys :=
  (Slot.turn?_eq_some op.pairwise_usedQubits taken).1

theorem free_le_of_slot? (taken : t.slot? op = some s) {q : Nat}
    (mem : q ∈ op.usedQubits.keys) : t.free q ≤ s :=
  freeFrom_le_iff.mp (Slot.turn?_eq_some op.pairwise_usedQubits taken).2.1 q mem

/-- Before the slot that an operation takes, some of its qubits is not free. -/
theorem exists_lt_free (taken : t.slot? op = some s) {u : Slot}
    (own : u.qubit ∈ op.usedQubits.keys) (before : u < s) :
    ∃ q ∈ op.usedQubits.keys, u < t.free q := by
  by_contra none
  have allFree : t.freeFrom op.usedQubits.keys ≤ u := by
    apply freeFrom_le_iff.mpr
    intro q mem
    by_contra notYet
    exact none ⟨q, mem, Slot.not_le.mp notYet⟩
  exact Slot.not_le.mpr before ((Slot.turn?_eq_some op.pairwise_usedQubits taken).2.2 own allFree)

/-- A slot depends on the qubits of the operation only. -/
theorem slot?_congr {t' : Timetable} (same : ∀ q ∈ op.usedQubits.keys, t.free q = t'.free q) :
    t.slot? op = t'.slot? op := by
  have fold : ∀ (qubits : List Nat) (u : Slot), (∀ q ∈ qubits, t.free q = t'.free q) →
      qubits.foldl (fun s q => s.later (t.free q)) u =
        qubits.foldl (fun s q => s.later (t'.free q)) u := by
    intro qubits
    induction qubits with
    | nil => intro _ _; rfl
    | cons q rest ih =>
        intro u agree
        rw [List.foldl_cons, List.foldl_cons, agree q List.mem_cons_self]
        exact ih _ fun q mem => agree q (List.mem_cons_of_mem _ mem)
  have together : t.freeFrom op.usedQubits.keys = t'.freeFrom op.usedQubits.keys :=
    fold op.usedQubits.keys .first same
  rw [slot?, slot?, together]

/-- The timetable after an operation. -/
def after (t : Timetable) (op : Operation S) : Timetable :=
  match t.slot? op with
  | some s => t.occupy op.usedQubits.keys s
  | none => t

theorem after_of_slot? (taken : t.slot? op = some s) :
    t.after op = t.occupy op.usedQubits.keys s := by
  rw [after, taken]

theorem find?_after_of_not_mem {q : Nat} (other : q ∉ op.usedQubits.keys) :
    (t.after op).find? q = t.find? q := by
  rw [after]
  split
  · rw [find?_occupy, if_neg other]
  · rfl

theorem free_after_of_not_mem {q : Nat} (other : q ∉ op.usedQubits.keys) :
    (t.after op).free q = t.free q := by
  rw [free, find?_after_of_not_mem other, free]

theorem free_after_of_mem (taken : t.slot? op = some s) {q : Nat}
    (mem : q ∈ op.usedQubits.keys) : (t.after op).free q = s.next := by
  rw [after_of_slot? taken, free_occupy, if_pos mem]

/-- Qubits are free later and later. -/
theorem free_le_free_after (t : Timetable) (op : Operation S) (q : Nat) :
    t.free q ≤ (t.after op).free q := by
  by_cases mem : q ∈ op.usedQubits.keys
  · cases taken : t.slot? op with
    | none =>
        rw [slot?_eq_none_iff.mp taken] at mem
        contradiction
    | some s =>
        rw [free_after_of_mem taken mem]
        exact Slot.le_trans (free_le_of_slot? taken mem) (Slot.le_of_lt (Slot.lt_next s))
  · rw [free_after_of_not_mem mem]
    exact Slot.le_refl _

/-! ## Slots of lists -/

theorem assign_cons_of_slot? (taken : t.slot? op = some s) (ops : List (Operation S)) :
    t.assign (op :: ops) = (s, op) :: (t.after op).assign ops := by
  rw [after_of_slot? taken]
  unfold slot? at taken
  rw [assign]
  simp only [taken]

theorem assign_cons_of_slot?_eq_none (untouched : t.slot? op = none) (ops : List (Operation S)) :
    t.assign (op :: ops) = t.assign ops := by
  unfold slot? at untouched
  rw [assign]
  simp only [untouched]

/-- The slots that the operations of a list take, position by position. -/
def slots (t : Timetable) : List (Operation S) → List (Option Slot)
  | [] => []
  | op :: ops => t.slot? op :: (t.after op).slots ops

theorem length_slots (t : Timetable) (ops : List (Operation S)) :
    (t.slots ops).length = ops.length := by
  induction ops generalizing t with
  | nil => rfl
  | cons op ops ih => rw [slots, List.length_cons, List.length_cons, ih]

/-- The operations with their slots, as an assignment lists them. -/
theorem mem_assign_iff {ops : List (Operation S)} :
    (s, op) ∈ t.assign ops ↔ ∃ i : Nat, (t.slots ops)[i]? = some (some s) ∧ ops[i]? = some op := by
  induction ops generalizing t with
  | nil => simp [assign]
  | cons head ops ih =>
      cases taken : t.slot? head with
      | none =>
          have unchanged : t.after head = t := by rw [after, taken]
          rw [assign_cons_of_slot?_eq_none taken, ih, slots, taken, unchanged]
          constructor
          · rintro ⟨i, slot, found⟩
            exact ⟨i + 1, slot, found⟩
          · rintro ⟨i, slot, found⟩
            cases i with
            | zero => simp at slot
            | succ i => exact ⟨i, slot, found⟩
      | some s' =>
          rw [assign_cons_of_slot? taken, List.mem_cons, ih, slots, taken]
          constructor
          · rintro (equal | ⟨i, slot, found⟩)
            · rcases Prod.mk.inj equal with ⟨rfl, rfl⟩
              exact ⟨0, rfl, rfl⟩
            · exact ⟨i + 1, slot, found⟩
          · rintro ⟨i, slot, found⟩
            cases i with
            | zero =>
                obtain rfl := Option.some.inj (Option.some.inj slot)
                obtain rfl := Option.some.inj found
                exact .inl rfl
            | succ i => exact .inr ⟨i, slot, found⟩

variable {ops : List (Operation S)} {i j : Nat} {a b : Operation S} {u : Slot}

/-- An operation has the turn of one of its qubits. -/
theorem qubit_mem_of_slots (slot : (t.slots ops)[i]? = some (some s)) (found : ops[i]? = some a) :
    s.qubit ∈ a.usedQubits.keys := by
  induction ops generalizing t i with
  | nil => simp at found
  | cons head ops ih =>
      cases i with
      | zero =>
          obtain rfl := Option.some.inj found
          exact qubit_mem_of_slot? (Option.some.inj slot)
      | succ i => exact ih slot found

/-- The operations without a slot are those without qubits. -/
theorem slots_eq_none_iff (found : ops[i]? = some a) :
    (t.slots ops)[i]? = some none ↔ a.usedQubits.keys = [] := by
  induction ops generalizing t i with
  | nil => simp at found
  | cons head ops ih =>
      cases i with
      | zero =>
          obtain rfl := Option.some.inj found
          rw [slots, List.getElem?_cons_zero, Option.some.injEq, slot?_eq_none_iff]
      | succ i =>
          rw [slots, List.getElem?_cons_succ]
          exact ih found

/-- An operation waits until its qubits are free. -/
theorem free_le_of_slots (slot : (t.slots ops)[i]? = some (some s)) (found : ops[i]? = some a)
    {q : Nat} (mem : q ∈ a.usedQubits.keys) : t.free q ≤ s := by
  induction ops generalizing t i with
  | nil => simp at found
  | cons head ops ih =>
      cases i with
      | zero =>
          obtain rfl := Option.some.inj found
          exact free_le_of_slot? (Option.some.inj slot) mem
      | succ i => exact Slot.le_trans (free_le_free_after t head q) (ih slot found)

/-- A later operation with a common qubit takes a later slot. -/
theorem lt_of_mem_assign (taken : t.slot? op = some s)
    (listed : (u, b) ∈ (t.after op).assign ops) {q : Nat} (memOp : q ∈ op.usedQubits.keys)
    (memB : q ∈ b.usedQubits.keys) : s < u := by
  rcases mem_assign_iff.mp listed with ⟨i, slot, found⟩
  have waits := free_le_of_slots slot found memB
  rw [free_after_of_mem taken memOp] at waits
  exact Slot.next_le_iff.mp waits

/-- An operation has its slot to itself. -/
theorem ne_of_mem_assign (taken : t.slot? op = some s)
    (listed : (u, b) ∈ (t.after op).assign ops) : u ≠ s := by
  rintro rfl
  rcases mem_assign_iff.mp listed with ⟨i, slot, found⟩
  exact Slot.lt_irrefl u
    (lt_of_mem_assign taken listed (qubit_mem_of_slot? taken) (qubit_mem_of_slots slot found))

/-- No two operations take the same slot. -/
theorem nodup_assign (t : Timetable) (ops : List (Operation S)) :
    ((t.assign ops).map Prod.fst).Nodup := by
  induction ops generalizing t with
  | nil => exact List.nodup_nil
  | cons op ops ih =>
      cases taken : t.slot? op with
      | none =>
          rw [assign_cons_of_slot?_eq_none taken]
          exact ih t
      | some s =>
          rw [assign_cons_of_slot? taken, List.map_cons]
          apply (ih (t.after op)).cons
          intro mem
          rcases List.mem_map.mp mem with ⟨⟨u, b⟩, listed, same⟩
          exact ne_of_mem_assign taken listed same

/-- Operations that share a qubit have slots in program order. -/
theorem lt_of_slots (before : i < j) (slotI : (t.slots ops)[i]? = some (some s))
    (foundI : ops[i]? = some a) (slotJ : (t.slots ops)[j]? = some (some u))
    (foundJ : ops[j]? = some b) {q : Nat} (memA : q ∈ a.usedQubits.keys)
    (memB : q ∈ b.usedQubits.keys) : s < u := by
  induction ops generalizing t i j with
  | nil => simp at foundI
  | cons head ops ih =>
      rcases Nat.exists_eq_succ_of_ne_zero (Nat.ne_of_gt (Nat.zero_lt_of_lt before)) with ⟨j, rfl⟩
      cases i with
      | zero =>
          obtain rfl := Option.some.inj foundI
          have taken : t.slot? head = some s := Option.some.inj slotI
          change ((t.after head).slots ops)[j]? = some (some u) at slotJ
          change ops[j]? = some b at foundJ
          have waits := free_le_of_slots slotJ foundJ memB
          rw [free_after_of_mem taken memA] at waits
          exact Slot.next_le_iff.mp waits
      | succ i => exact ih (Nat.lt_of_succ_lt_succ before) slotI foundI slotJ foundJ

/-- Before the slot of an operation one of its qubits is not free yet, be it because of an earlier
operation. -/
theorem exists_earlier (slot : (t.slots ops)[j]? = some (some s)) (found : ops[j]? = some b)
    (own : u.qubit ∈ b.usedQubits.keys) (before : u < s) :
    (∃ q ∈ b.usedQubits.keys, u < t.free q) ∨
      ∃ i < j, ∃ a v, ops[i]? = some a ∧ (t.slots ops)[i]? = some (some v) ∧ u ≤ v ∧
        ∃ q ∈ b.usedQubits.keys, q ∈ a.usedQubits.keys := by
  induction ops generalizing t j with
  | nil => simp at found
  | cons head ops ih =>
      cases j with
      | zero =>
          obtain rfl := Option.some.inj found
          exact .inl (exists_lt_free (Option.some.inj slot) own before)
      | succ j =>
          rcases ih slot found with ⟨q, mem, waits⟩ | ⟨i, less, a, v, foundI, slotI, le, share⟩
          · by_cases touched : q ∈ head.usedQubits.keys
            · cases taken : t.slot? head with
              | none =>
                  rw [slot?_eq_none_iff.mp taken] at touched
                  contradiction
              | some v =>
                  rw [free_after_of_mem taken touched] at waits
                  refine .inr ⟨0, Nat.zero_lt_succ j, head, v, rfl, ?_, Slot.lt_next_iff.mp waits,
                    q, mem, touched⟩
                  rw [slots, taken, List.getElem?_cons_zero]
            · rw [free_after_of_not_mem touched] at waits
              exact .inl ⟨q, mem, waits⟩
          · exact .inr ⟨i + 1, Nat.succ_lt_succ less, a, v, foundI, slotI, le, share⟩

end Timetable

end QuantumCircuit
