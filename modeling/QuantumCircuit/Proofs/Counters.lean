import Mathlib.Order.Bounds.Basic
import QuantumCircuit.Counters

/-!
# Counts, read with zero as the default

A count that is not stored is zero, and so is a count beyond the width.  The greatest count is the
greatest of those that can be read, as long as nothing is stored beyond the width.
-/

namespace QuantumCircuit.Counters

variable {c : Counters}

/-! ## Reading -/

theorem get_eq_getD (c : Counters) (i : Nat) : c.get i = (c.get? i).getD 0 := by
  rw [get?]
  by_cases below : i < c.width
  · rw [if_pos below, Option.getD_some]
  · rw [if_neg below, get, if_neg below, Option.getD_none]

@[simp]
theorem get_zero (width i : Nat) : (zero width).get i = 0 := by
  rw [get_eq_getD, get?_zero]
  split <;> rfl

theorem get_set (c : Counters) (i n j : Nat) :
    (c.set i n).get j = if j = i ∧ i < c.width then n else c.get j := by
  rw [get_eq_getD, get?_set, get_eq_getD c j]
  split <;> rfl

theorem get_increment {c : Counters} {i : Nat} (below : i < c.width) (j : Nat) :
    (c.increment i).get j = c.get j + if j = i then 1 else 0 := by
  rw [increment, get_set]
  by_cases same : j = i
  · rw [if_pos ⟨same, below⟩, if_pos same, same]
  · rw [if_neg fun both => same both.1, if_neg same, Nat.add_zero]

/-! ## The greatest count -/

/-- Whether only indices below the width have counts. -/
def Within (c : Counters) : Prop :=
  ∀ q n, c.counts.find? q = some n → q < c.width

theorem within_zero (width : Nat) : (zero width).Within :=
  fun _ _ stored => nomatch stored

theorem Within.set (within : c.Within) (i n : Nat) : (c.set i n).Within := by
  intro q m stored
  rw [width_set]
  unfold Counters.set at stored
  split at stored
  · next below =>
      rw [SortedMap.find?_insert] at stored
      split at stored
      · next same => exact same ▸ below
      · exact within q m stored
  · exact within q m stored

theorem get_of_find? (within : c.Within) {q n : Nat} (stored : c.counts.find? q = some n) :
    c.get q = n := by
  rw [get, if_pos (within q n stored), stored, Option.getD_some]

theorem mem_values_iff {n : Nat} :
    n ∈ c.counts.values ↔ ∃ q, c.counts.find? q = some n := by
  simp only [SortedMap.values, List.mem_map, Prod.exists, exists_eq_right,
    SortedMap.find?_eq_some_iff]

/-- A count that is not zero is stored. -/
theorem get_eq_zero_or_mem (c : Counters) (q : Nat) : c.get q = 0 ∨ c.get q ∈ c.counts.values := by
  rw [get]
  cases stored : c.counts.find? q with
  | none => exact .inl (ite_self 0)
  | some n =>
      split
      · exact .inr (mem_values_iff.mpr ⟨q, stored⟩)
      · exact .inl rfl

/-- The greatest count is zero, or the count of an index, and no count is greater. -/
theorem isGreatest_greatest (within : c.Within) :
    IsGreatest (insert 0 (c.get '' Set.Iio c.width)) c.greatest := by
  rw [greatest]
  constructor
  · cases last : c.counts.values.max? with
    | none => exact .inl rfl
    | some m =>
        obtain ⟨q, stored⟩ := mem_values_iff.mp (List.max?_mem last)
        exact .inr ⟨q, within q m stored, get_of_find? within stored⟩
  · rintro n (rfl | ⟨q, -, rfl⟩)
    · exact Nat.zero_le _
    · rcases c.get_eq_zero_or_mem q with zero | member
      · rw [zero]
        exact Nat.zero_le _
      · exact List.le_max?_getD_of_mem member

/-! ## Setting several counts -/

theorem width_foldl_set (qubits : List Nat) (n : Nat) (c : Counters) :
    (qubits.foldl (fun c q => c.set q n) c).width = c.width := by
  induction qubits generalizing c with
  | nil => rfl
  | cons p qubits ih => rw [List.foldl_cons, ih, width_set]

theorem Within.foldl_set (within : c.Within) (qubits : List Nat) (n : Nat) :
    (qubits.foldl (fun c q => c.set q n) c).Within := by
  induction qubits generalizing c with
  | nil => exact within
  | cons p qubits ih => exact ih (within.set p n)

theorem get_foldl_set {q : Nat} (below : q < c.width) (qubits : List Nat) (n : Nat) :
    (qubits.foldl (fun c q => c.set q n) c).get q = if q ∈ qubits then n else c.get q := by
  induction qubits generalizing c with
  | nil => rfl
  | cons p qubits ih =>
      have belowSet : q < (c.set p n).width := by rwa [width_set]
      rw [List.foldl_cons, ih belowSet, get_set]
      by_cases same : q = p
      · subst same
        simp [below]
      · simp [same]

end QuantumCircuit.Counters
