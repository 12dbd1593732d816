import Mathlib.Data.Nat.Basic
import QuantumCircuit.Circuit.Sequence
import QuantumCircuit.Circuit.Statistics
import QuantumCircuit.Proofs.Operation.Blocks
import QuantumCircuit.Tensor.Export

/-!
# Circuits with and without blocks

Counts, depth, the tests of a circuit, the variables that it records and its export look through
blocks.  None of them changes when blocks are replaced by their contents.
-/

namespace QuantumCircuit

open Operation

variable {S : Type}

/-! ## Counts, depth and tests -/

theorem transparent_individualCountAll :
    Transparent (individualCountAll : List (Operation S) → Nat) := by
  intro before ops after
  rw [individualCountAll_append, individualCountAll_append, individualCountAll_append,
    individualCountAll, individualCount, Nat.add_assoc]

theorem transparent_singleQubitCountAll :
    Transparent (singleQubitCountAll : List (Operation S) → Nat) := by
  intro before ops after
  rw [singleQubitCountAll_append, singleQubitCountAll_append, singleQubitCountAll_append,
    singleQubitCountAll, singleQubitCount, Nat.add_assoc]

theorem transparent_addDepthAll (depths : Counters) :
    Transparent (addDepthAll depths : List (Operation S) → Counters) := by
  intro before ops after
  rw [addDepthAll_append, addDepthAll_append, addDepthAll_append, addDepthAll, addDepth]

theorem transparent_measuredAfterAll? (measured : List Nat) :
    Transparent (measuredAfterAll? measured : List (Operation S) → Option (List Nat)) := by
  intro before ops after
  rw [measuredAfterAll?_append, measuredAfterAll?_append, measuredAfterAll?_append,
    Option.bind_assoc]
  refine Option.bind_congr fun next _ => ?_
  rw [measuredAfterAll?, measuredAfter?]
  cases measuredAfterAll? next ops with
  | none => rfl
  | some last => rfl

theorem transparent_anySymbolic :
    Transparent (anySymbolic : List (Operation S) → Bool) := by
  intro before ops after
  rw [anySymbolic_append, anySymbolic_append, anySymbolic_append, anySymbolic, hasSymbolic,
    Bool.or_assoc]

theorem transparent_leavesAll :
    Transparent (leavesAll : List (Operation S) → List (Operation S)) := by
  intro before ops after
  rw [leavesAll_append, leavesAll_append, leavesAll_append, leavesAll, leaves, List.append_assoc]

/-- The number of qubits that the depth is taken over. -/
theorem transparent_greatestWidth :
    Transparent fun ops : List (Operation S) => (ops.map width).max?.getD 0 := by
  intro before ops after
  refine eq_of_forall_ge_iff fun n => ?_
  simp only [greatestWidth_le_iff, List.forall_mem_append, List.forall_mem_cons,
    width_compound_le_iff, and_assoc]

namespace Circuit

theorem transparent_depth (c : Circuit S) :
    Transparent fun ops : List (Operation S) => ({ c with ops } : Circuit S).depth := by
  intro before ops after
  have widths := transparent_greatestWidth before ops after
  dsimp only at widths
  simp only [depth, numTotalQubits]
  rw [widths, transparent_addDepthAll]

/-! ## Recorded variables -/

variable [Scalar S]

theorem foldl_recordVariables (ops : List (Operation S)) (c : Circuit S) :
    ops.foldl recordVariables c =
      { c with
        variableNames := (allVariableNames ops).foldl SortedSet.insert c.variableNames } := by
  induction ops generalizing c with
  | nil => rfl
  | cons op ops ih =>
      rw [List.foldl_cons, ih, allVariableNames, List.foldl_append]
      rfl

/-- Appending all operations of a list is appending them one by one. -/
theorem pushAll_eq_foldl_push (ops : List (Operation S)) (c : Circuit S) :
    c.pushAll ops = ops.foldl push c := by
  induction ops generalizing c with
  | nil =>
      rw [pushAll, List.append_nil]
      rfl
  | cons op ops ih =>
      rw [List.foldl_cons, ← ih]
      simp only [pushAll, push, foldl_recordVariables, recordVariables, allVariableNames,
        List.foldl_append, List.append_assoc, List.singleton_append]

theorem transparent_variableNames_pushAll (c : Circuit S) :
    Transparent fun ops : List (Operation S) => (c.pushAll ops).variableNames := by
  intro before ops after
  simp only [pushAll, foldl_recordVariables, allVariableNames_append, allVariableNames,
    Operation.variableNames, List.append_assoc]

end Circuit

/-! ## Export -/

namespace Tape

variable {σ : Type} (b : Backend S σ)

theorem writeAll_append (t : Tape S σ) (first second : List (Operation S)) :
    writeAll b t (first ++ second) =
      match writeAll b t first with
      | (t, .ok ()) => writeAll b t second
      | (t, .error e) => (t, .error e) := by
  induction first generalizing t with
  | nil => rfl
  | cons op first ih =>
      rw [List.cons_append, writeAll, writeAll]
      rcases write b t op with ⟨next, _ | _⟩
      · rfl
      · exact ih next

theorem transparent_writeAll (t : Tape S σ) : Transparent (writeAll b t) := by
  intro before ops after
  rw [List.append_assoc, writeAll_append, writeAll_append b t before]
  rcases writeAll b t before with ⟨next, _ | _⟩
  · rfl
  · exact (writeAll_append b next ops after).symm

end Tape

/-! ## What cannot be observed -/

namespace Circuit

variable [Scalar S]

/-- Replacing blocks by their contents, at any depth, changes no count, not the depth, no test, not
the recorded variables, and not what an export writes, where it leaves the legs, the place and the
backend, and whether and why it fails.  It commutes with taking adjoints. -/
theorem flattens_unobservable {ops ops' : List (Operation S)} (flattens : Flattens ops ops')
    (c : Circuit S) :
    let before : Circuit S := { c with ops }
    let after : Circuit S := { c with ops := ops' }
    before.numIndividualOps = after.numIndividualOps ∧
    before.numSingleQubitOps = after.numSingleQubitOps ∧
    before.depth = after.depth ∧
    before.isDynamic = after.isDynamic ∧
    before.isVariableFree = after.isVariableFree ∧
    (ops.foldl push c).variableNames = (ops'.foldl push c).variableNames ∧
    (∀ {σ : Type} (b : Backend S σ) (t : Tape S σ),
      Tape.writeAll b t ops = Tape.writeAll b t ops') ∧
    Flattens (invertAll ops) (invertAll ops') ∧
    leavesAll (invertAll ops) = ((leavesAll ops').map Operation.invert).reverse := by
  refine ⟨transparent_individualCountAll.eq_of_flattens flattens,
    transparent_singleQubitCountAll.eq_of_flattens flattens,
    (transparent_depth c).eq_of_flattens flattens, ?_, ?_, ?_,
    fun b t => (Tape.transparent_writeAll b t).eq_of_flattens flattens,
    Relation.ReflTransGen.lift Operation.invertAll (fun _ _ unwraps => unwraps.invertAll) _ _
      flattens, ?_⟩
  · exact congrArg Option.isNone ((transparent_measuredAfterAll? []).eq_of_flattens flattens)
  · exact congrArg not (transparent_anySymbolic.eq_of_flattens flattens)
  · rw [← pushAll_eq_foldl_push, ← pushAll_eq_foldl_push]
    exact (transparent_variableNames_pushAll c).eq_of_flattens flattens
  · rw [leavesAll_invertAll, transparent_leavesAll.eq_of_flattens flattens]

/-- A gate in a block in a block, which also measures its qubit. -/
theorem flattens_unobservable_nested :
    let gate : Operation Float := .standard ⟨.s, .empty, [0], []⟩
    let measurement : Operation Float := .nonUnitary (.ofMeasure [0] [0])
    let nested : List (Operation Float) := [.compound [.compound [gate], measurement]]
    Flattens nested [gate, measurement] ∧
      ({ blank Config.default with ops := nested } : Circuit Float).depth = 2 ∧
      leavesAll (invertAll nested) = [measurement, gate.invert] := by
  intro gate measurement nested
  have flattens : Flattens nested [gate, measurement] := flattens_leavesAll nested
  rcases flattens_unobservable flattens (blank Config.default) with
    ⟨_, _, depth, _, _, _, _, _, inverted⟩
  refine ⟨flattens, ?_, inverted⟩
  rw [depth]
  decide +kernel

end Circuit

end QuantumCircuit
