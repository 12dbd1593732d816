import QuantumCircuit.Circuit.Statistics
import QuantumCircuit.Circuit.Transform
import QuantumCircuit.Proofs.Counters
import QuantumCircuit.Proofs.Operation.Adjoint
import QuantumCircuit.Proofs.Reorder.Chains

/-!
# The depth as a longest chain

The depth is computed with one count for each qubit.  It is the length of a longest chain of
operations of which each shares a qubit with the next, because the count of a qubit is, at any time,
the length of a longest chain that ends at the qubit.  Chains can be read in either direction and
depend on shared qubits only, so taking the adjoint and putting the operations in canonical order
leave the depth as it is.
-/

namespace QuantumCircuit

variable {S : Type}

/-! ## Chains -/

namespace Operation

variable {op a b : Operation S} {past chain leaves : List (Operation S)} {depths : Counters}
  {q : Nat}

/-- The lengths of the chains in a list: operations picked from it in its order, each of which
shares a qubit with the next. -/
def chainLengths (leaves : List (Operation S)) : Set Nat :=
  {k | ∃ chain : List (Operation S),
    chain.Sublist leaves ∧ chain.IsChain Overlaps ∧ chain.length = k}

/-- A chain of operations, the latest one first, that ends at a qubit: the latest one touches it. -/
structure ChainTo (past : List (Operation S)) (q : Nat) (chain : List (Operation S)) : Prop where
  /-- The operations are picked from those of the past. -/
  picked : chain.Sublist past
  /-- Each shares a qubit with the next. -/
  linked : chain.IsChain Overlaps
  /-- The latest one touches the qubit. -/
  ends : ∀ op ∈ chain.head?, q ∈ op.usedQubits.keys

theorem chainTo_nil (past : List (Operation S)) (q : Nat) : ChainTo past q [] :=
  ⟨List.nil_sublist past, .nil, fun _ none => absurd none (by simp)⟩

/-- A chain either does without the latest operation, or it extends, by that operation, a chain
that ends at one of its qubits. -/
theorem chainTo_cons_iff : ChainTo (op :: past) q chain ↔
    ChainTo past q chain ∨ q ∈ op.usedQubits.keys ∧
      ∃ p ∈ op.usedQubits.keys, ∃ rest, ChainTo past p rest ∧ chain = op :: rest := by
  constructor
  · rintro ⟨picked, linked, ends⟩
    rcases List.sublist_cons_iff.mp picked with earlier | ⟨rest, rfl, earlier⟩
    · exact .inl ⟨earlier, linked, ends⟩
    · have used := ends op rfl
      refine .inr ⟨used, ?_⟩
      cases rest with
      | nil => exact ⟨q, used, [], chainTo_nil past q, rfl⟩
      | cons next rest =>
          obtain ⟨⟨p, usedOp, usedNext⟩, linkedRest⟩ := List.isChain_cons_cons.mp linked
          refine ⟨p, usedOp, next :: rest, ⟨earlier, linkedRest, ?_⟩, rfl⟩
          rintro _ ⟨⟩
          exact usedNext
  · rintro (⟨picked, linked, ends⟩ | ⟨used, p, usedOp, rest, ⟨picked, linked, ends⟩, rfl⟩)
    · exact ⟨picked.cons op, linked, ends⟩
    · refine ⟨picked.cons_cons op, ?_, ?_⟩
      · cases rest with
        | nil => exact .singleton op
        | cons next rest =>
            exact List.isChain_cons_cons.mpr ⟨⟨p, usedOp, ends next rfl⟩, linked⟩
      · rintro _ ⟨⟩
        exact used

/-! ## Layers -/

/-- Whether the count of each qubit is the length of a longest chain that ends at it. -/
def Deepest (past : List (Operation S)) (depths : Counters) : Prop :=
  ∀ q < depths.width, IsGreatest {k | ∃ chain, ChainTo past q chain ∧ chain.length = k}
    (depths.get q)

theorem deepest_nil (width : Nat) : Deepest ([] : List (Operation S)) (.zero width) := by
  intro q _
  rw [Counters.get_zero]
  refine ⟨⟨[], chainTo_nil [] q, rfl⟩, ?_⟩
  rintro k ⟨chain, ⟨picked, -, -⟩, rfl⟩
  rw [List.sublist_nil.mp picked, List.length_nil]

/-- The layer of an operation is one above the deepest of its qubits. -/
theorem exists_addLayer (depths : Counters) {qubits : List Nat}
    (within : ∀ q ∈ qubits, q < depths.width) :
    ∃ layer, addLayer qubits depths = qubits.foldl (fun ds q => ds.set q layer) depths ∧
      (∀ q ∈ qubits, depths.get q < layer) ∧
      (qubits ≠ [] → ∃ q ∈ qubits, depths.get q + 1 = layer) := by
  have counts : qubits.filterMap depths.get? = qubits.map depths.get := by
    rw [← List.filterMap_eq_map]
    refine List.filterMap_congr fun q member => ?_
    rw [Counters.get?, if_pos (within q member), Function.comp_apply]
  unfold addLayer
  rw [counts]
  refine ⟨_, rfl, ?_⟩
  cases deepest : (qubits.map depths.get).max? with
  | none =>
      rw [List.max?_eq_none_iff, List.map_eq_nil_iff] at deepest
      simp [deepest]
  | some d =>
      refine ⟨fun q member => ?_, fun _ => ?_⟩
      · exact Nat.lt_succ_of_le ((List.max?_le_iff deepest).mp (Nat.le_refl d) _
          (List.mem_map_of_mem member))
      · obtain ⟨q, member, equal⟩ := List.mem_map.mp (List.max?_mem deepest)
        exact ⟨q, member, by rw [equal]⟩

/-- A layer on top keeps the counts longest. -/
theorem Deepest.addLayer (deepest : Deepest past depths)
    (within : ∀ q ∈ op.usedQubits.keys, q < depths.width) :
    Deepest (op :: past) (addLayer op.usedQubits.keys depths) := by
  obtain ⟨layer, added, above, attained⟩ := exists_addLayer depths within
  intro q below
  rw [added, Counters.width_foldl_set] at below
  rw [added, Counters.get_foldl_set below]
  simp only [chainTo_cons_iff]
  obtain ⟨reached, longest⟩ := deepest q below
  split
  · next used =>
      constructor
      · obtain ⟨p, usedOp, deep⟩ := attained (List.ne_nil_of_mem used)
        obtain ⟨rest, chain, length⟩ := (deepest p (within p usedOp)).1
        refine ⟨op :: rest, .inr ⟨used, p, usedOp, rest, chain, rfl⟩, ?_⟩
        rw [List.length_cons, length, deep]
      · rintro k ⟨chain, earlier | ⟨-, p, usedOp, rest, earlier, rfl⟩, rfl⟩
        · exact (longest ⟨chain, earlier, rfl⟩).trans (above q used).le
        · have shorter := (deepest p (within p usedOp)).2 ⟨rest, earlier, rfl⟩
          rw [List.length_cons]
          exact (Nat.succ_le_succ shorter).trans (above p usedOp)
  · next unused =>
      simp only [unused, false_and, or_false]
      exact ⟨reached, longest⟩

/-- The greatest count is the length of a longest chain if every operation touches a qubit. -/
theorem Deepest.isGreatest_greatest (deepest : Deepest past depths) (within : depths.Within)
    (touching : ∀ op ∈ past, ∃ q ∈ op.usedQubits.keys, q < depths.width) :
    IsGreatest (chainLengths past) depths.greatest := by
  obtain ⟨attained, above⟩ := Counters.isGreatest_greatest within
  constructor
  · rcases attained with none | ⟨q, below, reached⟩
    · exact ⟨[], List.nil_sublist past, .nil, none.symm⟩
    · obtain ⟨chain, chainTo, length⟩ := (deepest q below).1
      exact ⟨chain, chainTo.picked, chainTo.linked, length.trans reached⟩
  · rintro k ⟨chain, picked, linked, rfl⟩
    cases chain with
    | nil => exact Nat.zero_le _
    | cons op chain =>
        obtain ⟨q, used, below⟩ := touching op (picked.subset List.mem_cons_self)
        have ends : ∀ last ∈ (op :: chain).head?, q ∈ last.usedQubits.keys := by
          rintro _ ⟨⟩
          exact used
        calc
          (op :: chain).length ≤ depths.get q := (deepest q below).2 ⟨_, ⟨picked, linked, ends⟩, rfl⟩
          _ ≤ depths.greatest := above (.inr ⟨q, below, rfl⟩)

theorem width_addLayer (qubits : List Nat) (depths : Counters) :
    (addLayer qubits depths).width = depths.width :=
  Counters.width_foldl_set qubits _ depths

/-- Adds operations that are no blocks, one after the other, each as a layer. -/
def addLayers (depths : Counters) (leaves : List (Operation S)) : Counters :=
  leaves.foldl (fun ds op => addLayer op.usedQubits.keys ds) depths

theorem Deepest.addLayers (deepest : Deepest past depths)
    (within : ∀ op ∈ leaves, ∀ q ∈ op.usedQubits.keys, q < depths.width) :
    Deepest (leaves.reverse ++ past) (addLayers depths leaves) := by
  induction leaves generalizing past depths with
  | nil => exact deepest
  | cons op leaves ih =>
      obtain ⟨first, rest⟩ := List.forall_mem_cons.mp within
      rw [List.reverse_cons, List.append_assoc]
      refine ih (deepest.addLayer first) ?_
      rwa [width_addLayer]

theorem width_addLayers (depths : Counters) (leaves : List (Operation S)) :
    (addLayers depths leaves).width = depths.width := by
  induction leaves generalizing depths with
  | nil => rfl
  | cons op leaves ih =>
      exact (ih _).trans (width_addLayer op.usedQubits.keys depths)

theorem within_addLayers (within : depths.Within) (leaves : List (Operation S)) :
    (addLayers depths leaves).Within := by
  induction leaves generalizing depths with
  | nil => exact within
  | cons op leaves ih => exact ih (within.foldl_set _ _)

/-- Whether an operation that is no block takes a layer: it is no barrier, and touches a qubit. -/
def takesLayer (op : Operation S) : Bool :=
  op.kind != .barrier && !op.usedQubits.isEmpty

/-- The operations, of a list and of its blocks, that are no blocks and take a layer, in program
order. -/
def layered (ops : List (Operation S)) : List (Operation S) :=
  (leavesAll ops).filter takesLayer

theorem exists_mem_usedQubits_of_layered {ops : List (Operation S)} (member : op ∈ layered ops) :
    ∃ q, q ∈ op.usedQubits.keys := by
  have takes := List.of_mem_filter member
  rw [takesLayer, Bool.and_eq_true, Bool.not_eq_true'] at takes
  refine List.exists_mem_of_ne_nil _ fun empty => ?_
  rw [isEmpty_usedQubits_iff.mpr empty] at takes
  exact Bool.noConfusion takes.2

theorem addOwnDepth_eq (op : Operation S) (depths : Counters) :
    addOwnDepth op depths = addLayers depths ([op].filter takesLayer) := by
  rw [addOwnDepth, List.filter_singleton, takesLayer]
  by_cases barrier : op.kind = .barrier
  · simp [barrier, addLayers]
  · cases empty : op.usedQubits.isEmpty with
    | true => simp [barrier, addLayers, isEmpty_usedQubits_iff.mp empty, addLayer]
    | false =>
        have kind : (op.kind != .barrier) = true := bne_iff_ne.mpr barrier
        simp [barrier, kind, addLayers]

mutual

/-- The depth of an operation comes from the layers of its leaves. -/
theorem addDepth_eq : ∀ (op : Operation S) (depths : Counters),
    op.addDepth depths = addLayers depths (op.leaves.filter takesLayer)
  | .standard _, _ => addOwnDepth_eq _ _
  | .symbolic _, _ => addOwnDepth_eq _ _
  | .nonUnitary _, _ => addOwnDepth_eq _ _
  | .conditioned _ _, _ => addOwnDepth_eq _ _
  | .compound ops, depths => addDepthAll_eq ops depths

theorem addDepthAll_eq : ∀ (ops : List (Operation S)) (depths : Counters),
    addDepthAll depths ops = addLayers depths (layered ops)
  | [], _ => rfl
  | op :: ops, depths => by
      rw [addDepthAll, addDepth_eq op, addDepthAll_eq ops, layered, layered, leavesAll,
        List.filter_append, addLayers, addLayers, addLayers, List.foldl_append]

end

theorem lt_of_mem_layered {q width : Nat} {ops : List (Operation S)} {leaf : Operation S}
    (wide : ∀ op ∈ ops, op.width ≤ width) (member : leaf ∈ layered ops)
    (used : q ∈ leaf.usedQubits.keys) : q < width := by
  have touched : q ∈ (usedQubitsAll ops).keys :=
    (mem_usedQubitsAll_iff_leaf ops).mpr ⟨leaf, List.mem_of_mem_filter member, used⟩
  obtain ⟨op, memberOp, usedOp⟩ := mem_usedQubitsAll.mp touched
  exact width_le_iff.mp (wide op memberOp) q usedOp

/-! ## Chains in other orders -/

theorem chainLengths_reverse_subset (leaves : List (Operation S)) :
    chainLengths leaves ⊆ chainLengths leaves.reverse := by
  rintro k ⟨chain, picked, linked, rfl⟩
  refine ⟨chain.reverse, picked.reverse, ?_, List.length_reverse⟩
  exact List.isChain_reverse.mpr (linked.imp fun _ _ overlap => overlap.symm)

/-- Chains can be read in either direction. -/
theorem chainLengths_reverse (leaves : List (Operation S)) :
    chainLengths leaves.reverse = chainLengths leaves := by
  refine Set.Subset.antisymm ?_ (chainLengths_reverse_subset leaves)
  simpa only [List.reverse_reverse] using chainLengths_reverse_subset leaves.reverse

/-- Only the qubits matter. -/
theorem chainLengths_map {f : Operation S → Operation S}
    (same : ∀ op q, q ∈ (f op).usedQubits.keys ↔ q ∈ op.usedQubits.keys)
    (leaves : List (Operation S)) : chainLengths (leaves.map f) = chainLengths leaves := by
  have overlaps : (fun a b => (f a).Overlaps (f b)) = (Overlaps : Operation S → _ → Prop) := by
    funext a b
    simp only [Overlaps, same]
  ext k
  constructor
  · rintro ⟨_, picked, linked, rfl⟩
    obtain ⟨chain, earlier, rfl⟩ := List.sublist_map_iff.mp picked
    rw [List.isChain_map, overlaps] at linked
    exact ⟨chain, earlier, linked, (List.length_map f).symm⟩
  · rintro ⟨chain, picked, linked, rfl⟩
    refine ⟨chain.map f, picked.map f, ?_, List.length_map f⟩
    rw [List.isChain_map, overlaps]
    exact linked

/-- Leaves are layered as they stand, without those that take no layer. -/
theorem sublist_layered_iff {ops : List (Operation S)} : chain.Sublist (layered ops) ↔
    chain.Sublist (leavesAll ops) ∧ ∀ op ∈ chain, op.takesLayer = true := by
  constructor
  · intro picked
    exact ⟨picked.trans List.filter_sublist, fun op member =>
      List.of_mem_filter (picked.subset member)⟩
  · rintro ⟨picked, takes⟩
    rw [← List.filter_eq_self.mpr takes]
    exact picked.filter takesLayer

theorem chainLengths_layered_canonicalOrder (ops : List (Operation S)) :
    chainLengths (layered (Circuit.canonicalOrder ops)) = chainLengths (layered ops) := by
  ext k
  refine exists_congr fun chain => ?_
  rw [sublist_layered_iff, sublist_layered_iff, and_assoc, and_assoc]
  constructor
  · rintro ⟨picked, takes, linked, length⟩
    exact ⟨(sublist_leavesAll_canonicalOrder_iff linked).mp picked, takes, linked, length⟩
  · rintro ⟨picked, takes, linked, length⟩
    exact ⟨(sublist_leavesAll_canonicalOrder_iff linked).mpr picked, takes, linked, length⟩

/-! ## Chains of adjoints -/

section Adjoint

variable [Scalar S]

theorem takesLayer_invert (op : Operation S) : op.invert.takesLayer = op.takesLayer := by
  have qubits : op.invert.usedQubits = op.usedQubits :=
    SortedSet.ext_keys fun _ => mem_usedQubits_invert op
  rw [Bool.eq_iff_iff, takesLayer, takesLayer, Bool.and_eq_true, Bool.and_eq_true, bne_iff_ne,
    bne_iff_ne, qubits, Ne, Ne, kind_invert_eq_barrier_iff]

theorem layered_invertAll (ops : List (Operation S)) :
    layered (invertAll ops) = ((layered ops).map invert).reverse := by
  rw [layered, leavesAll_invertAll, List.filter_reverse, List.filter_map, layered]
  have same : takesLayer ∘ invert = (takesLayer : Operation S → Bool) :=
    funext takesLayer_invert
  rw [same]

theorem chainLengths_layered_invertAll (ops : List (Operation S)) :
    chainLengths (layered (invertAll ops)) = chainLengths (layered ops) := by
  rw [layered_invertAll, chainLengths_reverse,
    chainLengths_map fun op _ => mem_usedQubits_invert op]

end Adjoint

end Operation

/-! ## The depth -/

namespace Circuit

open Operation

/-- The depth is the length of a longest chain. -/
theorem isGreatest_depth (c : Circuit S) : IsGreatest (chainLengths (layered c.ops)) c.depth := by
  let width := max ((c.ops.map Operation.width).max?.getD 0) c.numTotalQubits
  have wide : ∀ op ∈ c.ops, op.width ≤ width :=
    greatestWidth_le_iff.mp (Nat.le_max_left _ c.numTotalQubits)
  have below : ∀ op ∈ layered c.ops, ∀ q ∈ op.usedQubits.keys, q < width := fun _ member _ used =>
    lt_of_mem_layered wide member used
  have deepest := (deepest_nil width).addLayers below
  have within := within_addLayers (Counters.within_zero width) (layered c.ops)
  rw [depth, addDepthAll_eq, ← chainLengths_reverse]
  rw [List.append_nil] at deepest
  refine deepest.isGreatest_greatest within fun op member => ?_
  obtain ⟨q, used⟩ := exists_mem_usedQubits_of_layered (List.mem_reverse.mp member)
  refine ⟨q, used, ?_⟩
  rw [width_addLayers]
  exact below op (List.mem_reverse.mp member) q used

/-- The depth is the length of a longest chain of leaves, barriers and leaves without qubits left
out, that are picked in program order and of which each shares a qubit with the next.  Inverting the
circuit and reordering its operations do not change it. -/
theorem depth_eq_longest_chain [Scalar S] (c : Circuit S) :
    IsGreatest {k | ∃ chain : List (Operation S),
      chain.Sublist ((leavesAll c.ops).filter takesLayer) ∧ chain.IsChain Overlaps ∧
      chain.length = k} c.depth ∧
    c.invert.depth = c.depth ∧ c.reorder.depth = c.depth := by
  have inverted := isGreatest_depth c.invert
  have reordered := isGreatest_depth c.reorder
  rw [ops_invert, chainLengths_layered_invertAll] at inverted
  rw [reorder, chainLengths_layered_canonicalOrder] at reordered
  exact ⟨isGreatest_depth c, inverted.unique (isGreatest_depth c),
    reordered.unique (isGreatest_depth c)⟩

end Circuit

end QuantumCircuit
