import Mathlib.Logic.Equiv.Basic
import Mathlib.Logic.Relation
import QuantumCircuit.Proofs.Reorder.Slots

/-!
# Swaps of independent operations

Two operations are linked if they share a qubit or if neither has one.  Swapping neighbours that are
not linked leaves the canonical order of a list as it is, and the canonical order itself can be
reached by such swaps.  So it is the normal form of a list up to swaps, and it rearranges the list
without exchanging two linked operations.
-/

namespace QuantumCircuit

open SortedMap

variable {S : Type}

/-- Whether two operations share a qubit, or neither has one. -/
def Operation.Linked (a b : Operation S) : Prop :=
  (∃ q ∈ a.usedQubits.keys, q ∈ b.usedQubits.keys) ∨
    (a.usedQubits.keys = [] ∧ b.usedQubits.keys = [])

/-- One list is the other with two neighbours swapped that are not linked. -/
inductive Swap : List (Operation S) → List (Operation S) → Prop where
  /-- The first two operations are swapped. -/
  | head {a b : Operation S} (free : ¬ a.Linked b) (ops : List (Operation S)) :
      Swap (a :: b :: ops) (b :: a :: ops)
  /-- Two operations further on are swapped. -/
  | tail (op : Operation S) {ops ops' : List (Operation S)} (swap : Swap ops ops') :
      Swap (op :: ops) (op :: ops')

/-- One list becomes the other by any number of swaps. -/
def Swaps : List (Operation S) → List (Operation S) → Prop :=
  Relation.ReflTransGen Swap

/-! ## The canonical order is not changed -/

namespace Timetable

variable {t : Timetable} {a b : Operation S}

theorem not_mem_of_not_linked (free : ¬ a.Linked b) {q : Nat} (mem : q ∈ a.usedQubits.keys) :
    q ∉ b.usedQubits.keys :=
  fun memB => free (.inl ⟨q, mem, memB⟩)

theorem not_linked_symm (free : ¬ a.Linked b) : ¬ b.Linked a := by
  rintro (⟨q, memB, memA⟩ | ⟨noneB, noneA⟩)
  · exact free (.inl ⟨q, memA, memB⟩)
  · exact free (.inr ⟨noneA, noneB⟩)

theorem slot?_after (free : ¬ a.Linked b) : (t.after a).slot? b = t.slot? b :=
  slot?_congr fun _ mem =>
    free_after_of_not_mem (not_mem_of_not_linked (not_linked_symm free) mem)

theorem find?_after_of_mem {s : Slot} {q : Nat} (taken : t.slot? a = some s)
    (mem : q ∈ a.usedQubits.keys) : (t.after a).find? q = some s.next := by
  rw [after_of_slot? taken, find?_occupy, if_pos mem]

theorem after_of_slot?_eq_none (untouched : t.slot? a = none) : t.after a = t := by
  rw [after, untouched]

/-- Operations that are not linked change the timetable in either order alike. -/
theorem after_comm (free : ¬ a.Linked b) : (t.after a).after b = (t.after b).after a := by
  apply ext_find?
  intro q
  by_cases memA : q ∈ a.usedQubits.keys
  · have notB := not_mem_of_not_linked free memA
    rw [find?_after_of_not_mem notB]
    cases taken : t.slot? a with
    | none =>
        rw [slot?_eq_none_iff.mp taken] at memA
        contradiction
    | some s =>
        have takenLater := (slot?_after (t := t) (not_linked_symm free)).trans taken
        rw [find?_after_of_mem taken memA, find?_after_of_mem takenLater memA]
  · rw [find?_after_of_not_mem (t := t.after b) memA]
    by_cases memB : q ∈ b.usedQubits.keys
    · cases taken : t.slot? b with
      | none =>
          rw [slot?_eq_none_iff.mp taken] at memB
          contradiction
      | some s =>
          have takenLater := (slot?_after (t := t) free).trans taken
          rw [find?_after_of_mem taken memB, find?_after_of_mem takenLater memB]
    · rw [find?_after_of_not_mem memB, find?_after_of_not_mem memB, find?_after_of_not_mem memA]

/-- Swapped operations take the same slots. -/
theorem ofList_assign_head (free : ¬ a.Linked b) (ops : List (Operation S)) :
    ofList (t.assign (a :: b :: ops)) = ofList (t.assign (b :: a :: ops)) := by
  have laterA := slot?_after (t := t) (not_linked_symm free)
  have laterB := slot?_after (t := t) free
  have comm := after_comm (t := t) free
  cases takenA : t.slot? a with
  | none =>
      rw [takenA] at laterA
      rw [assign_cons_of_slot?_eq_none takenA]
      cases takenB : t.slot? b with
      | none =>
          rw [assign_cons_of_slot?_eq_none takenB, assign_cons_of_slot?_eq_none takenB,
            assign_cons_of_slot?_eq_none takenA]
      | some s =>
          rw [assign_cons_of_slot? takenB, assign_cons_of_slot? takenB,
            assign_cons_of_slot?_eq_none laterA]
  | some s =>
      rw [takenA] at laterA
      rw [assign_cons_of_slot? takenA]
      cases takenB : t.slot? b with
      | none =>
          rw [takenB] at laterB
          rw [assign_cons_of_slot?_eq_none takenB, assign_cons_of_slot?_eq_none laterB,
            assign_cons_of_slot? takenA]
      | some u =>
          rw [takenB] at laterB
          rw [assign_cons_of_slot? takenB, assign_cons_of_slot? laterA,
            assign_cons_of_slot? laterB, comm]
          refine ofList_swap (fun same => ?_) _
          have own := qubit_mem_of_slot? takenB
          change s = u at same
          rw [← same] at own
          exact not_mem_of_not_linked free (qubit_mem_of_slot? takenA) own

end Timetable

theorem ofList_assign_of_swap {ops ops' : List (Operation S)} (swap : Swap ops ops')
    (t : Timetable) : ofList (t.assign ops) = ofList (t.assign ops') := by
  induction swap generalizing t with
  | head free ops => exact Timetable.ofList_assign_head free ops
  | tail op _ ih =>
      cases taken : t.slot? op with
      | none =>
          rw [Timetable.assign_cons_of_slot?_eq_none taken,
            Timetable.assign_cons_of_slot?_eq_none taken, ih]
      | some s =>
          rw [Timetable.assign_cons_of_slot? taken, Timetable.assign_cons_of_slot? taken]
          change (ofList _).insertNew s op = (ofList _).insertNew s op
          rw [ih]

theorem isEmpty_usedQubits_iff {op : Operation S} :
    op.usedQubits.isEmpty = true ↔ op.usedQubits.keys = [] := by
  rw [SortedMap.isEmpty, SortedMap.keys, List.isEmpty_iff, List.map_eq_nil_iff]

/-- Operations without qubits are not swapped with each other. -/
theorem filter_of_swap {ops ops' : List (Operation S)} (swap : Swap ops ops') :
    (ops.filter fun op => op.usedQubits.isEmpty) =
      ops'.filter fun op => op.usedQubits.isEmpty := by
  induction swap with
  | @head a b free ops =>
      have notBoth : ¬ (a.usedQubits.isEmpty = true ∧ b.usedQubits.isEmpty = true) := by
        rw [isEmpty_usedQubits_iff, isEmpty_usedQubits_iff]
        exact fun both => free (.inr both)
      cases emptyA : a.usedQubits.isEmpty <;> cases emptyB : b.usedQubits.isEmpty <;>
        simp_all
  | tail op _ ih => rw [List.filter_cons, List.filter_cons, ih]

/-- A swap leaves the canonical order as it is. -/
theorem canonicalOrder_of_swap {ops ops' : List (Operation S)} (swap : Swap ops ops') :
    Circuit.canonicalOrder ops = Circuit.canonicalOrder ops' := by
  rw [Circuit.canonicalOrder, Circuit.canonicalOrder, ofList_assign_of_swap swap,
    filter_of_swap swap]

theorem canonicalOrder_of_swaps {ops ops' : List (Operation S)} (swaps : Swaps ops ops') :
    Circuit.canonicalOrder ops = Circuit.canonicalOrder ops' := by
  induction swaps with
  | refl => rfl
  | tail _ swap ih => rw [ih, canonicalOrder_of_swap swap]

/-! ## The canonical order is reached -/

theorem Swap.symm {ops ops' : List (Operation S)} (swap : Swap ops ops') : Swap ops' ops := by
  induction swap with
  | head free ops => exact .head (Timetable.not_linked_symm free) ops
  | tail op _ ih => exact .tail op ih

namespace Swaps

variable {a : Operation S} {ops ops' : List (Operation S)}

theorem cons (op : Operation S) (swaps : Swaps ops ops') : Swaps (op :: ops) (op :: ops') := by
  induction swaps with
  | refl => exact .refl
  | tail _ swap ih => exact ih.tail (.tail op swap)

/-- Swaps can be taken back. -/
theorem symm (swaps : Swaps ops ops') : Swaps ops' ops := by
  induction swaps with
  | refl => exact .refl
  | tail _ swap ih => exact ih.head swap.symm

/-- An operation moves past operations that are not linked to it. -/
theorem bubble {pre : List (Operation S)} (free : ∀ b ∈ pre, ¬ a.Linked b)
    (post : List (Operation S)) : Swaps (a :: (pre ++ post)) (pre ++ a :: post) := by
  induction pre with
  | nil => exact .refl
  | cons b pre ih =>
      have rest := ih fun b' mem => free b' (List.mem_cons_of_mem _ mem)
      exact .head (.head (free b List.mem_cons_self) _) (rest.cons b)

end Swaps

namespace Timetable

variable {t : Timetable} {op b : Operation S} {ops : List (Operation S)} {s u : Slot}

/-- What the map of an assignment stores has been assigned. -/
theorem mem_assign_of_mem_entries (stored : (u, b) ∈ (ofList (t.assign ops)).entries) :
    (u, b) ∈ t.assign ops :=
  mem_of_find?_ofList (find?_of_mem_entries stored)

/-- An operation takes its slot between operations it is not linked to and others. -/
theorem values_assign_cons (taken : t.slot? op = some s) : ∃ pre post,
    (ofList ((t.after op).assign ops)).values = pre ++ post ∧
      (ofList (t.assign (op :: ops))).values = pre ++ op :: post ∧
      ∀ b ∈ pre, ¬ op.Linked b := by
  have fresh : ∀ e ∈ (ofList ((t.after op).assign ops)).entries, e.1 ≠ s :=
    fun _ stored => ne_of_mem_assign taken (mem_assign_of_mem_entries stored)
  obtain ⟨pre, post, split, inserted, smaller⟩ :=
    exists_insertEntry (fun _ old => old) op fresh
  refine ⟨pre.map Prod.snd, post.map Prod.snd, ?_, ?_, ?_⟩
  · rw [SortedMap.values, split, List.map_append]
  · rw [assign_cons_of_slot? taken]
    change (insertEntry _ s op (ofList ((t.after op).assign ops)).entries).map _ = _
    rw [inserted, List.map_append, List.map_cons]
  · rintro b mem (⟨q, memOp, memB⟩ | ⟨noneOp, _⟩)
    · rcases List.mem_map.mp mem with ⟨⟨u, b⟩, entry, rfl⟩
      have stored : (u, b) ∈ (ofList ((t.after op).assign ops)).entries := by
        rw [split]
        exact List.mem_append_left _ entry
      have less := Slot.compare_eq_lt_iff.mp (smaller _ entry)
      have greater := lt_of_mem_assign taken (mem_assign_of_mem_entries stored) memOp memB
      exact Slot.lt_irrefl u (Slot.lt_of_le_of_lt (Slot.le_of_lt less) greater)
    · have own := qubit_mem_of_slot? taken
      rw [noneOp] at own
      contradiction

end Timetable

/-- Assigning slots from any timetable on and listing the operations by slot is a matter of
swaps. -/
theorem swaps_assign (t : Timetable) (ops : List (Operation S)) :
    Swaps ops ((ofList (t.assign ops)).values ++ ops.filter fun op => op.usedQubits.isEmpty) := by
  induction ops generalizing t with
  | nil => exact .refl
  | cons op ops ih =>
      have rest := (ih (t.after op)).cons op
      cases taken : t.slot? op with
      | none =>
          have none : op.usedQubits.keys = [] := Timetable.slot?_eq_none_iff.mp taken
          rw [Timetable.after_of_slot?_eq_none taken] at rest
          rw [Timetable.assign_cons_of_slot?_eq_none taken, List.filter_cons,
            if_pos (isEmpty_usedQubits_iff.mpr none)]
          refine rest.trans (Swaps.bubble (fun b mem => ?_) _)
          rcases List.mem_map.mp mem with ⟨⟨u, b⟩, stored, rfl⟩
          obtain ⟨i, slot, found⟩ :=
            Timetable.mem_assign_iff.mp (Timetable.mem_assign_of_mem_entries stored)
          have own := Timetable.qubit_mem_of_slots slot found
          rintro (⟨q, memOp, _⟩ | ⟨_, noneB⟩)
          · rw [none] at memOp
            contradiction
          · rw [noneB] at own
            contradiction
      | some s =>
          have touched : ¬ op.usedQubits.isEmpty = true := by
            rw [isEmpty_usedQubits_iff]
            exact List.ne_nil_of_mem (Timetable.qubit_mem_of_slot? taken)
          rcases Timetable.values_assign_cons taken with ⟨pre, post, before, after, free⟩
          rw [before, List.append_assoc] at rest
          rw [after, List.filter_cons, if_neg touched, List.append_assoc, List.cons_append]
          exact rest.trans (Swaps.bubble free _)

/-- The canonical order of a list is reached by swaps. -/
theorem swaps_canonicalOrder (ops : List (Operation S)) :
    Swaps ops (Circuit.canonicalOrder ops) :=
  swaps_assign .empty ops

theorem perm_of_swaps {ops ops' : List (Operation S)} (swaps : Swaps ops ops') :
    ops.Perm ops' := by
  have single : ∀ {ops ops' : List (Operation S)}, Swap ops ops' → ops.Perm ops' := by
    intro ops ops' swap
    induction swap with
    | head _ ops => exact .swap _ _ ops
    | tail op _ ih => exact ih.cons op
  induction swaps with
  | refl => exact .refl _
  | tail _ swap ih => exact ih.trans (single swap)

/-! ## Rearrangements -/

/-- The permutation of the positions after the first one. -/
def succPerm (σ : Equiv.Perm Nat) : Equiv.Perm Nat where
  toFun
    | 0 => 0
    | i + 1 => σ i + 1
  invFun
    | 0 => 0
    | i + 1 => σ.symm i + 1
  left_inv i := by cases i <;> simp
  right_inv i := by cases i <;> simp

/-- The positions of a list sent to those of another, without exchanging linked operations. -/
structure Rearranges (σ : Equiv.Perm Nat) (ops ops' : List (Operation S)) : Prop where
  /-- Each operation is found where its position is sent. -/
  item : ∀ i, ops'[σ i]? = ops[i]?
  /-- Linked operations keep their order. -/
  order : ∀ {i j a b}, i < j → ops[i]? = some a → ops[j]? = some b → a.Linked b → σ i < σ j

namespace Rearranges

variable {ops ops' ops'' : List (Operation S)} {σ τ : Equiv.Perm Nat}

theorem refl (ops : List (Operation S)) : Rearranges (Equiv.refl Nat) ops ops :=
  ⟨fun _ => rfl, fun less _ _ _ => less⟩

theorem trans (first : Rearranges σ ops ops') (second : Rearranges τ ops' ops'') :
    Rearranges (σ.trans τ) ops ops'' := by
  refine ⟨fun i => ?_, fun {i j a b} less foundA foundB linked => ?_⟩
  · rw [Equiv.trans_apply, second.item, first.item]
  · rw [Equiv.trans_apply, Equiv.trans_apply]
    refine second.order (first.order less foundA foundB linked) ?_ ?_ linked
    · rw [first.item, foundA]
    · rw [first.item, foundB]

/-- Swapping the first two positions. -/
theorem head {a b : Operation S} (free : ¬ a.Linked b) (ops : List (Operation S)) :
    Rearranges (Equiv.swap 0 1) (a :: b :: ops) (b :: a :: ops) := by
  have first : Equiv.swap 0 1 0 = 1 := Equiv.swap_apply_left 0 1
  have second : Equiv.swap 0 1 1 = 0 := Equiv.swap_apply_right 0 1
  have others : ∀ i, Equiv.swap 0 1 (i + 2) = i + 2 := fun i =>
    Equiv.swap_apply_of_ne_of_ne (by omega) (by omega)
  refine ⟨fun i => ?_, fun {i j a' b'} less foundA foundB linked => ?_⟩
  · rcases i with _ | _ | i
    · rw [first]
      rfl
    · rw [second]
      rfl
    · rw [others]
      rfl
  · rcases i with _ | _ | i
    · rcases j with _ | _ | j
      · omega
      · obtain rfl := Option.some.inj foundA
        obtain rfl := Option.some.inj foundB
        exact absurd linked free
      · rw [first, others]
        omega
    · rcases j with _ | _ | j
      · omega
      · omega
      · rw [second, others]
        omega
    · rcases j with _ | _ | j
      · omega
      · omega
      · rw [others, others]
        exact less

theorem tail (op : Operation S) (rest : Rearranges σ ops ops') :
    Rearranges (succPerm σ) (op :: ops) (op :: ops') := by
  refine ⟨fun i => ?_, fun {i j a b} less foundA foundB linked => ?_⟩
  · cases i with
    | zero => rfl
    | succ i => exact rest.item i
  · cases i with
    | zero =>
        cases j with
        | zero => exact absurd less (Nat.lt_irrefl 0)
        | succ j => exact Nat.zero_lt_succ _
    | succ i =>
        cases j with
        | zero => exact absurd less (Nat.not_lt_zero _)
        | succ j =>
            exact Nat.succ_lt_succ (rest.order (Nat.lt_of_succ_lt_succ less) foundA foundB linked)

end Rearranges

theorem exists_rearranges {ops ops' : List (Operation S)} (swaps : Swaps ops ops') :
    ∃ σ, Rearranges σ ops ops' := by
  have single : ∀ {ops ops' : List (Operation S)}, Swap ops ops' → ∃ σ, Rearranges σ ops ops' := by
    intro ops ops' swap
    induction swap with
    | head free ops => exact ⟨_, .head free ops⟩
    | tail op _ ih =>
        rcases ih with ⟨σ, rest⟩
        exact ⟨_, rest.tail op⟩
  induction swaps with
  | refl => exact ⟨_, .refl ops⟩
  | tail _ swap ih =>
      rcases ih with ⟨σ, first⟩
      rcases single swap with ⟨τ, second⟩
      exact ⟨_, first.trans second⟩

end QuantumCircuit
