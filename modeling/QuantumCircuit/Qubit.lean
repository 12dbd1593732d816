import QuantumCircuit.SortedMap

/-!
# Qubits, classical bits and controls

Qubits and classical bits are natural numbers: physical indices where they are keys of a layout
or operands of an operation, logical ones where they are values of a layout.  An index is at most
`maxIndex`, which is checked where indices come from counts and where they are read from data.  What
is computed from indices is an index again, so that it wraps around past the greatest one.

A control is a qubit together with the state in which it lets a gate act; the controls of a gate
are a set, ordered by qubit and then by polarity.
-/

namespace QuantumCircuit

/-- The greatest index of a qubit or a classical bit. -/
def maxIndex : Nat :=
  0xffffffff

/-- A count or a position as an index, if it is not too large. -/
def index? (n : Nat) : Option Nat :=
  if n ≤ maxIndex then some n else none

@[simp]
theorem isSome_index? {n : Nat} : (index? n).isSome = true ↔ n ≤ maxIndex := by
  rw [index?]
  split <;> simp [*]

/-- A number as the result of index arithmetic, which starts again from zero after the greatest
index. -/
def wrapIndex (n : Nat) : Nat :=
  n % (maxIndex + 1)

@[simp]
theorem wrapIndex_of_le {n : Nat} (small : n ≤ maxIndex) : wrapIndex n = n :=
  Nat.mod_eq_of_lt (Nat.lt_succ_of_le small)

theorem wrapIndex_le (n : Nat) : wrapIndex n ≤ maxIndex :=
  Nat.le_of_lt_succ (Nat.mod_lt n (Nat.succ_pos maxIndex))

theorem wrapIndex_le_self (n : Nat) : wrapIndex n ≤ n :=
  Nat.mod_le n (maxIndex + 1)

/-- The text of a qubit. -/
def qubitText (q : Nat) : String :=
  "q" ++ toString q

/-- The text of a classical bit. -/
def clbitText (b : Nat) : String :=
  "c" ++ toString b

/-- The state of its qubit in which a control lets a gate act. -/
inductive Polarity where
  /-- The one state. -/
  | positive
  /-- The zero state. -/
  | negative
deriving DecidableEq, Repr, Inhabited

/-- A control qubit with its polarity. -/
structure Control where
  /-- The controlling qubit. -/
  qubit : Nat
  /-- The state in which the gate acts. -/
  polarity : Polarity
deriving DecidableEq, Repr, Inhabited

namespace Control

/-- A number that orders controls by qubit, and on one qubit puts the positive one first. -/
def rank (c : Control) : Nat :=
  2 * c.qubit + match c.polarity with
    | .positive => 0
    | .negative => 1

/-- Different controls have different ranks. -/
theorem rank_injective {c d : Control} (h : c.rank = d.rank) : c = d := by
  obtain ⟨q, p⟩ := c
  obtain ⟨r, o⟩ := d
  cases p <;> cases o <;> simp [rank] at h ⊢ <;> omega

instance : Ord Control where
  compare c d := compare c.rank d.rank

theorem compare_eq (c d : Control) : compare c d = compare c.rank d.rank :=
  rfl

instance : Std.TransOrd Control where
  eq_swap {a b} := by
    simp only [compare_eq]
    exact Std.OrientedCmp.eq_swap
  isLE_trans {a b c} := by
    simp only [compare_eq]
    exact Std.TransCmp.isLE_trans

instance : Std.LawfulEqOrd Control where
  compare_self {a} := by simp
  eq_of_compare {a b} h := rank_injective (Std.compare_eq_iff_eq.mp h)

/-- The text of a control: a mark stands for negative polarity. -/
def text (c : Control) : String :=
  match c.polarity with
  | .positive => qubitText c.qubit
  | .negative => "!" ++ qubitText c.qubit

end Control

/-- The controls of a gate. -/
abbrev Controls := SortedSet Control

/-- Which logical qubit each physical qubit holds. -/
abbrev Layout := SortedMap Nat Nat

end QuantumCircuit
