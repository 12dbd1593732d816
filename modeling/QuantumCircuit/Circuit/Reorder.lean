import QuantumCircuit.Circuit.Basic

/-!
# The canonical order of operations

`reorder` reschedules the operations of a circuit without exchanging two that share a qubit.  Time
passes in rounds, and in each round every qubit has its turn, in ascending order.  The turn of a
qubit in a round is a `Slot`.  An operation takes the first slot of one of its qubits that comes
after the slots of all earlier operations with which it shares a qubit, and the operations come in
the order of their slots.  No two take the same slot, because they would share its qubit.
Operations that touch no qubit come last.
-/

namespace QuantumCircuit

/-- The turn of a qubit in a round. -/
structure Slot where
  /-- The number of the round. -/
  round : Nat
  /-- The qubit whose turn it is. -/
  qubit : Nat
deriving DecidableEq, Repr, Inhabited

namespace Slot

/-- Slots come round by round, and in each round qubit by qubit. -/
instance : Ord Slot where
  compare := compareLex (compareOn round) (compareOn qubit)

instance : Std.TransOrd Slot :=
  inferInstanceAs (Std.TransCmp (compareLex (compareOn round) (compareOn qubit)))

instance : Std.LawfulEqOrd Slot where
  compare_self {s} := by simp
  eq_of_compare {s t} h := by
    obtain ⟨r, q⟩ := s
    obtain ⟨r', q'⟩ := t
    have h : (compare r r').then (compare q q') = .eq := h
    have ⟨hr, hq⟩ := Ordering.then_eq_eq.mp h
    rw [Std.compare_eq_iff_eq.mp hr, Std.compare_eq_iff_eq.mp hq]

/-- The first slot of all. -/
def first : Slot :=
  ⟨0, 0⟩

/-- The slot that follows. -/
def next (s : Slot) : Slot :=
  ⟨s.round, s.qubit + 1⟩

/-- The later one of two slots. -/
def later (s t : Slot) : Slot :=
  if compare s t = .lt then t else s

/-- The first turn from a slot on that one of some qubits, listed in ascending order, has; none if
there are no qubits. -/
def turn? (s : Slot) (qubits : List Nat) : Option Slot :=
  match qubits.find? fun q => s.qubit ≤ q with
  | some q => some ⟨s.round, q⟩
  | none => qubits.head?.map fun q => ⟨s.round + 1, q⟩

end Slot

/-- For each qubit the slot from which on it is free; a qubit that is not listed is free from the
first slot on. -/
abbrev Timetable := SortedMap Nat Slot

namespace Timetable

/-- The slot from which on all of some qubits are free. -/
def freeFrom (t : Timetable) (qubits : List Nat) : Slot :=
  qubits.foldl (fun s q => s.later ((t.find? q).getD .first)) .first

/-- Keeps qubits busy up to a slot and in it. -/
def occupy (t : Timetable) (qubits : List Nat) (s : Slot) : Timetable :=
  qubits.foldl (fun t q => t.insert q s.next) t

variable {S : Type}

/-- The operations of a list that touch qubits, each with its slot. -/
def assign (t : Timetable) : List (Operation S) → List (Slot × Operation S)
  | [] => []
  | op :: ops =>
      let qubits := op.usedQubits.keys
      match (t.freeFrom qubits).turn? qubits with
      | some s => (s, op) :: assign (t.occupy qubits s) ops
      | none => assign t ops

end Timetable

namespace Circuit

variable {S : Type}

/-- The operations of a list in canonical order. -/
def canonicalOrder (ops : List (Operation S)) : List (Operation S) :=
  (SortedMap.ofList (Timetable.assign .empty ops)).values
    ++ ops.filter fun op => op.usedQubits.isEmpty

/-- Puts the operations in canonical order. -/
def reorder (c : Circuit S) : Circuit S :=
  { c with ops := canonicalOrder c.ops }

end Circuit

end QuantumCircuit
