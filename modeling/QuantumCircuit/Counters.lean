import QuantumCircuit.SortedMap

/-!
# Counts of indices

A `Counters` holds a natural number for each index below a width, for example a depth for each
qubit.  Only counts that were set are stored, so a large width costs nothing.

`get?` is the view through which the other operations are described: `get?_zero`, `get?_set`,
`get?_increment` and `get?_ofList` say what each of them does to it.
-/

namespace QuantumCircuit

/-- A count for each index below a width. -/
structure Counters where
  /-- The number of indices. -/
  width : Nat
  /-- The counts that were set; every other index has count zero. -/
  counts : SortedMap Nat Nat

namespace Counters

/-- The count of an index, and zero beyond the width. -/
def get (c : Counters) (i : Nat) : Nat :=
  if i < c.width then (c.counts.find? i).getD 0 else 0

/-- The count of an index below the width. -/
def get? (c : Counters) (i : Nat) : Option Nat :=
  if i < c.width then some (c.get i) else none

/-- The counts in the order of the indices. -/
def toList (c : Counters) : List Nat :=
  (List.range c.width).map c.get

/-- The greatest count, and zero if there is none. -/
def greatest (c : Counters) : Nat :=
  c.counts.values.max?.getD 0

/-- Zero for every index below a width. -/
def zero (width : Nat) : Counters :=
  ⟨width, .empty⟩

/-- Sets the count of an index below the width, and does nothing beyond it. -/
def set (c : Counters) (i n : Nat) : Counters :=
  if i < c.width then { c with counts := c.counts.insert i n } else c

/-- Counts one more of an index below the width. -/
def increment (c : Counters) (i : Nat) : Counters :=
  c.set i (c.get i + 1)

/-- Sets the counts of consecutive indices, up to the width. -/
def setFrom (c : Counters) (start : Nat) : List Nat → Counters
  | [] => c
  | n :: rest => (c.set start n).setFrom (start + 1) rest

/-- The counts of a list. -/
def ofList (l : List Nat) : Counters :=
  (zero l.length).setFrom 0 l

/-! ## What the operations do to look-up -/

@[simp]
theorem get?_zero (width i : Nat) : (zero width).get? i = if i < width then some 0 else none := by
  unfold get? get zero
  split <;> rfl

@[simp]
theorem width_set (c : Counters) (i n : Nat) : (c.set i n).width = c.width := by
  unfold set
  split <;> rfl

/-- What is set is found again, and nothing else changes. -/
theorem get?_set (c : Counters) (i n j : Nat) :
    (c.set i n).get? j = if j = i ∧ i < c.width then some n else c.get? j := by
  unfold get? get
  rw [width_set]
  unfold set
  by_cases hi : i < c.width
  · by_cases h : j = i
    · simp [h, hi, SortedMap.find?_insert]
    · simp [h, hi, SortedMap.find?_insert]
  · simp [hi]

/-- One more is counted of an index, and nothing else changes. -/
theorem get?_increment (c : Counters) (i j : Nat) :
    (c.increment i).get? j = if j = i ∧ i < c.width then some (c.get i + 1) else c.get? j :=
  get?_set c i (c.get i + 1) j

/-- Setting consecutive counts reaches the indices from the first one on, as long as the list. -/
theorem get?_setFrom (c : Counters) (start i : Nat) (l : List Nat) :
    (c.setFrom start l).get? i =
      if start ≤ i ∧ i < start + l.length ∧ i < c.width then l[i - start]? else c.get? i := by
  induction l generalizing c start with
  | nil =>
      have hempty : ¬ (start ≤ i ∧ i < start + 0 ∧ i < c.width) := by omega
      rw [setFrom, List.length_nil, if_neg hempty]
  | cons n rest ih =>
      rw [setFrom, ih, width_set, get?_set, List.length_cons]
      by_cases h : i = start
      · subst h
        have hlow : ¬ i + 1 ≤ i := by omega
        by_cases hw : i < c.width
        · simp [hw, hlow]
        · simp [hw]
      · by_cases hlt : start < i
        · have hsub : i - start = (i - (start + 1)) + 1 := by omega
          have hlow : start + 1 ≤ i ↔ start ≤ i := by omega
          rw [hsub, List.getElem?_cons_succ]
          simp only [h, hlow, Nat.add_right_comm start 1, Nat.add_assoc, false_and, if_false]
        · have hlow : ¬ start ≤ i := by omega
          have hlow' : ¬ start + 1 ≤ i := by omega
          simp [h, hlow, hlow']

/-- The counts of a list are its items. -/
theorem get?_ofList (l : List Nat) (i : Nat) : (ofList l).get? i = l[i]? := by
  rw [ofList, get?_setFrom, get?_zero]
  by_cases h : i < l.length
  · simp [zero, h]
  · simp [h]

/-- Listing the counts does not change look-up. -/
theorem getElem?_toList (c : Counters) (i : Nat) : c.toList[i]? = c.get? i := by
  unfold toList get?
  by_cases h : i < c.width <;> simp [h]

/-- The counts of a list are listed as they were given. -/
@[simp]
theorem toList_ofList (l : List Nat) : (ofList l).toList = l := by
  apply List.ext_getElem?
  intro i
  rw [getElem?_toList, get?_ofList]

end Counters

end QuantumCircuit
