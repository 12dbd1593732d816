import Mathlib.Logic.Relation
import QuantumCircuit.Operation.Analysis
import QuantumCircuit.Operation.Inverse
import QuantumCircuit.Proofs.SortedMap

/-!
# Blocks and their contents

A block can be replaced by the operations in it, wherever it stands: in the list itself, or within
other blocks.  `Unwraps` is one such replacement.  A function of lists that cannot tell a block of
a list from its contents cannot tell blocks within blocks from theirs either, so for each function
the law for appended lists is what there is to prove.
-/

namespace QuantumCircuit

open SortedMap

namespace Operation

variable {S : Type}

/-! ## Appended lists -/

theorem individualCountAll_append (first second : List (Operation S)) :
    individualCountAll (first ++ second) =
      individualCountAll first + individualCountAll second := by
  induction first with
  | nil => exact (Nat.zero_add _).symm
  | cons op first ih =>
      rw [List.cons_append, individualCountAll, individualCountAll, ih, Nat.add_assoc]

theorem singleQubitCountAll_append (first second : List (Operation S)) :
    singleQubitCountAll (first ++ second) =
      singleQubitCountAll first + singleQubitCountAll second := by
  induction first with
  | nil => exact (Nat.zero_add _).symm
  | cons op first ih =>
      rw [List.cons_append, singleQubitCountAll, singleQubitCountAll, ih, Nat.add_assoc]

theorem addDepthAll_append (depths : Counters) (first second : List (Operation S)) :
    addDepthAll depths (first ++ second) = addDepthAll (addDepthAll depths first) second := by
  induction first generalizing depths with
  | nil => rfl
  | cons op first ih => rw [List.cons_append, addDepthAll, addDepthAll, ih]

theorem measuredAfterAll?_append (measured : List Nat) (first second : List (Operation S)) :
    measuredAfterAll? measured (first ++ second) =
      (measuredAfterAll? measured first).bind fun next => measuredAfterAll? next second := by
  induction first generalizing measured with
  | nil => rfl
  | cons op first ih =>
      rw [List.cons_append, measuredAfterAll?, measuredAfterAll?]
      cases op.measuredAfter? measured with
      | none => rfl
      | some next => exact ih next

theorem anySymbolic_append (first second : List (Operation S)) :
    anySymbolic (first ++ second) = (anySymbolic first || anySymbolic second) := by
  induction first with
  | nil => rfl
  | cons op first ih => rw [List.cons_append, anySymbolic, anySymbolic, ih, Bool.or_assoc]

theorem allVariableNames_append (first second : List (Operation S)) :
    allVariableNames (first ++ second) = allVariableNames first ++ allVariableNames second := by
  induction first with
  | nil => rfl
  | cons op first ih =>
      rw [List.cons_append, allVariableNames, allVariableNames, ih, List.append_assoc]

/-! ## Width -/

/-- An operation is as wide as it takes to have the qubits that it touches below the width. -/
theorem width_le_iff {op : Operation S} {n : Nat} :
    op.width ≤ n ↔ ∀ q ∈ op.usedQubits.keys, q < n := by
  unfold width
  cases last : op.usedQubits.lastKey? with
  | none => simp [List.getLast?_eq_none_iff.mp last]
  | some k =>
      rcases lastKey?_spec last with ⟨mem, greatest⟩
      exact ⟨fun bound q used => Nat.lt_of_le_of_lt (greatest q used) bound,
        fun below => below k mem⟩

theorem mem_usedQubitsAll {ops : List (Operation S)} {q : Nat} :
    q ∈ (usedQubitsAll ops).keys ↔ ∃ op ∈ ops, q ∈ op.usedQubits.keys := by
  induction ops with
  | nil => simp [usedQubitsAll, keys, SortedMap.empty]
  | cons op ops ih =>
      rw [usedQubitsAll, SortedSet.mem_keys_union, ih]
      simp only [List.mem_cons, exists_eq_or_imp, or_comm]

/-- A block is as wide as its contents. -/
theorem width_compound_le_iff {ops : List (Operation S)} {n : Nat} :
    (compound ops).width ≤ n ↔ ∀ op ∈ ops, op.width ≤ n := by
  simp only [width_le_iff, usedQubits, mem_usedQubitsAll, forall_exists_index, and_imp]
  exact ⟨fun below op member q used => below q op member used,
    fun below q op member used => below op member q used⟩

/-- The greatest width of operations, as a circuit of them takes it. -/
theorem greatestWidth_le_iff {ops : List (Operation S)} {n : Nat} :
    (ops.map width).max?.getD 0 ≤ n ↔ ∀ op ∈ ops, op.width ≤ n := by
  cases greatest : (ops.map width).max? with
  | none =>
      rw [List.max?_eq_none_iff, List.map_eq_nil_iff] at greatest
      simp [greatest]
  | some w =>
      rw [Option.getD_some, List.max?_le_iff greatest]
      simp only [List.forall_mem_map]

/-! ## Adjoints of appended lists -/

theorem invertEach_eq_map [Scalar S] (ops : List (Operation S)) :
    invertEach ops = ops.map invert := by
  induction ops with
  | nil => rfl
  | cons op ops ih => rw [invertEach, ih, List.map_cons]

theorem invertAll_append [Scalar S] (first second : List (Operation S)) :
    invertAll (first ++ second) = invertAll second ++ invertAll first := by
  simp only [invertAll, invertEach_eq_map, List.map_append, List.reverse_append]

theorem invertAll_compound [Scalar S] (ops : List (Operation S)) :
    invertAll [compound ops] = [compound (invertAll ops)] :=
  rfl

/-! ## Leaves -/

mutual

/-- The operations of an operation that are no blocks, in program order. -/
def leaves : Operation S → List (Operation S)
  | .standard g => [.standard g]
  | .symbolic g => [.symbolic g]
  | .nonUnitary e => [.nonUnitary e]
  | .conditioned op c => [.conditioned op c]
  | .compound ops => leavesAll ops
termination_by structural op => op

/-- The operations of a list and its blocks that are no blocks, in program order. -/
def leavesAll : List (Operation S) → List (Operation S)
  | [] => []
  | op :: ops => op.leaves ++ leavesAll ops
termination_by structural ops => ops

end

theorem leavesAll_append (first second : List (Operation S)) :
    leavesAll (first ++ second) = leavesAll first ++ leavesAll second := by
  induction first with
  | nil => rfl
  | cons op first ih => rw [List.cons_append, leavesAll, leavesAll, ih, List.append_assoc]

mutual

/-- The leaves of the adjoint are the adjoints of the leaves, in reverse order. -/
theorem leaves_invert [Scalar S] : ∀ op : Operation S,
    op.invert.leaves = (op.leaves.map invert).reverse
  | .standard _ => rfl
  | .symbolic _ => rfl
  | .nonUnitary _ => rfl
  | .conditioned _ _ => rfl
  | .compound ops => leavesAll_invertAll ops

/-- Flattening the inverse of a list gives the inverses of the flattened leaves, reversed. -/
theorem leavesAll_invertAll [Scalar S] : ∀ ops : List (Operation S),
    leavesAll (invertAll ops) = ((leavesAll ops).map invert).reverse
  | [] => rfl
  | op :: ops => by
      have last : leavesAll (invertAll [op]) = (op.leaves.map invert).reverse := by
        rw [invertAll, invertEach, invertEach, List.reverse_singleton, leavesAll, leavesAll,
          List.append_nil, leaves_invert op]
      rw [← List.singleton_append, invertAll_append, leavesAll_append, leavesAll_invertAll ops,
        last, List.singleton_append, leavesAll, List.map_append, List.reverse_append]

end

/-! ## Replacing blocks -/

/-- One list is the other with one block, at any depth of blocks, replaced by its contents. -/
inductive Unwraps : List (Operation S) → List (Operation S) → Prop where
  /-- A block of the list. -/
  | here (before ops after : List (Operation S)) :
      Unwraps (before ++ compound ops :: after) (before ++ ops ++ after)
  /-- A block within a block of the list. -/
  | within (before : List (Operation S)) {ops ops' : List (Operation S)}
      (after : List (Operation S)) (unwraps : Unwraps ops ops') :
      Unwraps (before ++ compound ops :: after) (before ++ compound ops' :: after)

/-- Any number of replacements, one after the other. -/
abbrev Flattens : List (Operation S) → List (Operation S) → Prop :=
  Relation.ReflTransGen Unwraps

/-- A function that cannot tell blocks of a list from their contents, in any surroundings. -/
def Transparent {β : Type} (f : List (Operation S) → β) : Prop :=
  ∀ before ops after, f (before ++ compound ops :: after) = f (before ++ ops ++ after)

/-- What holds in any surroundings carries over to blocks within blocks. -/
theorem Transparent.eq_of_unwraps {β : Type} {f : List (Operation S) → β}
    (transparent : Transparent f) {ops ops' : List (Operation S)} (unwraps : Unwraps ops ops') :
    f ops = f ops' := by
  have surrounded : ∀ before after, f (before ++ ops ++ after) = f (before ++ ops' ++ after) := by
    induction unwraps with
    | here inner ops tail =>
        intro before after
        simpa only [List.append_assoc, List.cons_append] using
          transparent (before ++ inner) ops (tail ++ after)
    | @within inner ops ops' tail _ ih =>
        intro before after
        have opened := transparent (before ++ inner) ops (tail ++ after)
        have opened' := transparent (before ++ inner) ops' (tail ++ after)
        have inside := ih (before ++ inner) (tail ++ after)
        rw [← opened, ← opened'] at inside
        simpa only [List.append_assoc, List.cons_append] using inside
  simpa only [List.nil_append, List.append_nil] using surrounded [] []

theorem Transparent.eq_of_flattens {β : Type} {f : List (Operation S) → β}
    (transparent : Transparent f) {ops ops' : List (Operation S)} (flattens : Flattens ops ops') :
    f ops = f ops' := by
  induction flattens with
  | refl => rfl
  | tail _ unwraps ih => exact ih.trans (transparent.eq_of_unwraps unwraps)

/-! ## Lists flatten to their leaves -/

/-- Replacements can be made in any surroundings. -/
theorem Unwraps.surround {ops ops' : List (Operation S)} (unwraps : Unwraps ops ops')
    (before after : List (Operation S)) :
    Unwraps (before ++ ops ++ after) (before ++ ops' ++ after) := by
  cases unwraps with
  | here inner ops tail =>
      simpa only [List.append_assoc, List.cons_append] using
        Unwraps.here (before ++ inner) ops (tail ++ after)
  | within inner tail unwraps =>
      simpa only [List.append_assoc, List.cons_append] using
        Unwraps.within (before ++ inner) (tail ++ after) unwraps

theorem Flattens.surround {ops ops' : List (Operation S)} (flattens : Flattens ops ops')
    (before after : List (Operation S)) :
    Flattens (before ++ ops ++ after) (before ++ ops' ++ after) :=
  Relation.ReflTransGen.lift (fun ops => before ++ ops ++ after)
    (fun _ _ unwraps => unwraps.surround before after) _ _ flattens

theorem Flattens.append {first first' second second' : List (Operation S)}
    (left : Flattens first first') (right : Flattens second second') :
    Flattens (first ++ second) (first' ++ second') := by
  have firstStep : Flattens (first ++ second) (first' ++ second) := by
    simpa only [List.nil_append] using left.surround [] second
  have secondStep : Flattens (first' ++ second) (first' ++ second') := by
    simpa only [List.append_nil] using right.surround first' []
  exact firstStep.trans secondStep

mutual

theorem flattens_leaves : ∀ op : Operation S, Flattens [op] op.leaves
  | .standard _ => .refl
  | .symbolic _ => .refl
  | .nonUnitary _ => .refl
  | .conditioned _ _ => .refl
  | .compound ops => by
      have opened : Unwraps [compound ops] ops := by
        simpa only [List.nil_append, List.append_nil] using Unwraps.here [] ops []
      exact (flattens_leavesAll ops).head opened

/-- Replacing all blocks leaves the leaves. -/
theorem flattens_leavesAll : ∀ ops : List (Operation S), Flattens ops (leavesAll ops)
  | [] => .refl
  | op :: ops => (flattens_leaves op).append (flattens_leavesAll ops)

end

/-- A replacement in a list is one in its adjoint. -/
theorem Unwraps.invertAll [Scalar S] {ops ops' : List (Operation S)} (unwraps : Unwraps ops ops') :
    Unwraps (invertAll ops) (Operation.invertAll ops') := by
  have split : ∀ before (op : Operation S) after, Operation.invertAll (before ++ op :: after) =
      Operation.invertAll after ++ (Operation.invertAll [op] ++ Operation.invertAll before) := by
    intro before op after
    rw [← List.singleton_append, invertAll_append, invertAll_append, List.append_assoc]
  induction unwraps with
  | here before ops after =>
      rw [split, invertAll_compound, invertAll_append, invertAll_append]
      simpa only [List.append_assoc, List.singleton_append] using Unwraps.here
        (Operation.invertAll after) (Operation.invertAll ops) (Operation.invertAll before)
  | within before after _ ih =>
      rw [split, split, invertAll_compound, invertAll_compound]
      exact Unwraps.within _ _ ih

end Operation

end QuantumCircuit
