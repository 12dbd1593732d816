import QuantumCircuit.Error
import QuantumCircuit.Qubit

/-!
# Named registers

A `Register` is a range of indices, and `Registers` gives registers names.  The queries of this
file look at the registers in name order, except where the order of their starts matters: in
`sorted`, and in `names`, where a later start takes an index over from an earlier one.

The end of a range is computed as an index.  It wraps around for a range that reaches `maxIndex`, and
then no index seems to lie between the start and the end.  A range whose end does not wrap around
`Fits`.
-/

namespace QuantumCircuit

/-- The indices from `start` up to `start + size`, without the end. -/
structure Register where
  /-- The first index. -/
  start : Nat
  /-- The number of indices. -/
  size : Nat
deriving DecidableEq, Repr, Inhabited

namespace Register

/-- One past the last index, as an index. -/
def stop (r : Register) : Nat :=
  wrapIndex (r.start + r.size)

/-- Whether an index lies between the start and the end. -/
def contains (r : Register) (i : Nat) : Bool :=
  r.start ≤ i && i < r.stop

/-- The indices between the start and the end, in ascending order. -/
def indices (r : Register) : List Nat :=
  List.range' r.start (r.stop - r.start)

/-- The indices of a register are those that lie in its range. -/
@[simp]
theorem mem_indices {r : Register} {i : Nat} : i ∈ r.indices ↔ r.contains i = true := by
  simp only [indices, contains, List.mem_range'_1, Bool.and_eq_true, decide_eq_true_eq]
  omega

/-- Whether the end of the range is an index. -/
def Fits (r : Register) : Prop :=
  r.start + r.size ≤ maxIndex

instance (r : Register) : Decidable r.Fits :=
  inferInstanceAs (Decidable (_ ≤ _))

theorem Fits.stop_eq {r : Register} (fits : r.Fits) : r.stop = r.start + r.size :=
  wrapIndex_of_le fits

/-- A register and one that starts where it ends, as one. -/
def join (low high : Register) : Register :=
  ⟨low.start, wrapIndex (low.size + high.size)⟩

end Register

/-- Registers by name. -/
abbrev Registers := SortedMap String Register

namespace Registers

/-- The registers by ascending start; equal starts are in name order. -/
def sorted (regs : Registers) : List (String × Register) :=
  regs.entries.mergeSort fun a b => a.2.start ≤ b.2.start

/-- The first register in name order that covers an index, and the position of the index in it. -/
def locate? (regs : Registers) (i : Nat) : Option (String × Nat) :=
  (regs.entries.find? fun e => e.2.contains i).map fun e => (e.1, i - e.2.start)

/-- The label of a position in a register. -/
def label (name : String) (offset : Nat) : String :=
  name ++ "[" ++ toString offset ++ "]"

/-- The register name and the label of each covered index.  Where registers overlap, the one that
starts later counts. -/
def names (regs : Registers) : SortedMap Nat (String × String) :=
  SortedMap.ofList <| (sorted regs).flatMap fun e =>
    e.2.indices.map fun i => (i, e.1, label e.1 (i - e.2.start))

/-- The sum of the sizes, as an index. -/
def totalSize (regs : Registers) : Nat :=
  wrapIndex (regs.values.foldr (fun r total => r.size + total) 0)

/-- Whether some register covers an index. -/
def covers (regs : Registers) (i : Nat) : Bool :=
  regs.values.any (·.contains i)

end Registers

end QuantumCircuit
