import Mathlib.Data.List.Chain
import QuantumCircuit.Proofs.Operation.Blocks
import QuantumCircuit.Proofs.Reorder.Swaps

/-!
# Chains of leaves

Operations that are picked from a list in its order, each of which shares a qubit with the next, are
a chain.  Two operations that share no qubit have no leaves that share one, so no chain has leaves
of both next to each other, and swapping the two leaves every chain in its order.  Hence what a list
says through chains of its leaves alone, its canonical order says, too.
-/

namespace QuantumCircuit

variable {S : Type}

namespace Operation

variable {a b : Operation S} {q : Nat}

/-- Whether two operations share a qubit. -/
def Overlaps (a b : Operation S) : Prop :=
  ∃ q ∈ a.usedQubits.keys, q ∈ b.usedQubits.keys

theorem Overlaps.symm (overlap : a.Overlaps b) : b.Overlaps a := by
  obtain ⟨q, usedA, usedB⟩ := overlap
  exact ⟨q, usedB, usedA⟩

/-! ## Leaves -/

mutual

theorem mem_usedQubits_iff_leaf {q : Nat} : ∀ op : Operation S,
    q ∈ op.usedQubits.keys ↔ ∃ leaf ∈ op.leaves, q ∈ leaf.usedQubits.keys
  | .standard _ => by simp [leaves]
  | .symbolic _ => by simp [leaves]
  | .nonUnitary _ => by simp [leaves]
  | .conditioned _ _ => by simp [leaves]
  | .compound ops => mem_usedQubitsAll_iff_leaf ops

/-- A block touches what its leaves touch. -/
theorem mem_usedQubitsAll_iff_leaf {q : Nat} : ∀ ops : List (Operation S),
    q ∈ (usedQubitsAll ops).keys ↔ ∃ leaf ∈ leavesAll ops, q ∈ leaf.usedQubits.keys
  | [] => by simp [leavesAll, mem_usedQubitsAll]
  | op :: ops => by
      rw [usedQubitsAll, SortedSet.mem_keys_union, mem_usedQubits_iff_leaf op,
        mem_usedQubitsAll_iff_leaf ops, leavesAll]
      simp only [List.mem_append, or_and_right, exists_or, or_comm]

end

/-- Operations that are not linked have no leaves that share a qubit. -/
theorem not_overlaps_of_not_linked (free : ¬ a.Linked b) :
    ∀ leaf ∈ a.leaves, ∀ other ∈ b.leaves, ¬ leaf.Overlaps other := by
  rintro leaf memA other memB ⟨q, usedA, usedB⟩
  exact free (.inl ⟨q, (mem_usedQubits_iff_leaf a).mpr ⟨leaf, memA, usedA⟩,
    (mem_usedQubits_iff_leaf b).mpr ⟨other, memB, usedB⟩⟩)

/-! ## Swaps -/

variable {chain ops ops' : List (Operation S)}

/-- A chain has no operations of both of two parts that share no qubit, so the parts can be
exchanged. -/
theorem sublist_exchange {first second : List (Operation S)}
    (free : ∀ a ∈ first, ∀ b ∈ second, ¬ a.Overlaps b) (pre post : List (Operation S))
    (linked : chain.IsChain Overlaps)
    (picked : chain.Sublist (pre ++ (first ++ (second ++ post)))) :
    chain.Sublist (pre ++ (second ++ (first ++ post))) := by
  obtain ⟨front, rest, rfl, pickedFront, pickedRest⟩ := List.sublist_append_iff.mp picked
  obtain ⟨left, rest, rfl, pickedLeft, pickedRest⟩ := List.sublist_append_iff.mp pickedRest
  obtain ⟨right, back, rfl, pickedRight, pickedBack⟩ := List.sublist_append_iff.mp pickedRest
  refine pickedFront.append ?_
  rcases List.eq_nil_or_concat' left with rfl | ⟨left, a, rfl⟩
  · exact pickedRight.append (pickedBack.trans (List.sublist_append_right _ _))
  · cases right with
    | nil => exact (pickedLeft.append pickedBack).trans (List.sublist_append_right _ _)
    | cons b right =>
        have overlap : a.Overlaps b :=
          (List.isChain_append.mp linked.right_of_append).2.2 a (by simp) b (by simp)
        exact absurd overlap (free a (pickedLeft.subset (by simp))
          b (pickedRight.subset List.mem_cons_self))

/-- Swapping operations that are not linked swaps all of their leaves, and tears no chain apart. -/
theorem sublist_leavesAll_of_swap (swap : Swap ops ops') (linked : chain.IsChain Overlaps)
    (pre : List (Operation S)) (picked : chain.Sublist (pre ++ leavesAll ops)) :
    chain.Sublist (pre ++ leavesAll ops') := by
  induction swap generalizing pre with
  | @head a b free ops =>
      exact sublist_exchange (not_overlaps_of_not_linked free) pre (leavesAll ops) linked picked
  | tail op _ ih =>
      rw [leavesAll, ← List.append_assoc] at picked ⊢
      exact ih _ picked

theorem sublist_leavesAll_of_swaps (swaps : Swaps ops ops') (linked : chain.IsChain Overlaps)
    (picked : chain.Sublist (leavesAll ops)) : chain.Sublist (leavesAll ops') := by
  induction swaps with
  | refl => exact picked
  | tail _ swap ih => exact sublist_leavesAll_of_swap swap linked [] ih

/-- The leaves have the same chains in the canonical order. -/
theorem sublist_leavesAll_canonicalOrder_iff (linked : chain.IsChain Overlaps) :
    chain.Sublist (leavesAll (Circuit.canonicalOrder ops)) ↔ chain.Sublist (leavesAll ops) :=
  ⟨sublist_leavesAll_of_swaps (swaps_canonicalOrder ops).symm linked,
    sublist_leavesAll_of_swaps (swaps_canonicalOrder ops) linked⟩

end Operation

end QuantumCircuit
