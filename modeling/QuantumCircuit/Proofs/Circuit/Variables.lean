import Mathlib.Data.List.Infix
import QuantumCircuit.Circuit.Reorder
import QuantumCircuit.Circuit.Transform
import QuantumCircuit.Proofs.Circuit.Admission
import QuantumCircuit.Proofs.Circuit.Flattening
import QuantumCircuit.Proofs.Circuit.Reachable
import QuantumCircuit.Proofs.Operation.Variables
import QuantumCircuit.Proofs.Reorder.Swaps

/-!
# Recorded variables

A circuit is to record every variable that its operations refer to.  All changes of its operations
keep that up except for instantiation, which drops every bound variable from the record but leaves
operations under conditions alone.  It keeps the record complete exactly if none of the variables
under conditions is bound.
-/

namespace QuantumCircuit

open Operation

variable {S : Type}

namespace Circuit

/-- Whether every variable that occurs, also under conditions and in blocks, is recorded. -/
def Listed (c : Circuit S) : Prop :=
  ∀ x ∈ allVariableNames c.ops, x ∈ c.variableNames.keys

variable {c next : Circuit S}

/-! ## Changes of the operations -/

/-- Without new occurrences there is nothing to record. -/
theorem Listed.of_names (listed : c.Listed) (recorded : next.variableNames = c.variableNames)
    (names : ∀ x ∈ allVariableNames next.ops, x ∈ allVariableNames c.ops) : next.Listed := by
  intro x occurs
  rw [recorded]
  exact listed x (names x occurs)

theorem Listed.of_members (listed : c.Listed) (recorded : next.variableNames = c.variableNames)
    (members : ∀ op ∈ next.ops, op ∈ c.ops) : next.Listed := by
  refine listed.of_names recorded fun x occurs => ?_
  rcases mem_allVariableNames.mp occurs with ⟨op, member, named⟩
  exact mem_allVariableNames.mpr ⟨op, members op member, named⟩

/-- Operations whose variables have been recorded can be taken in anywhere. -/
theorem Listed.record [Scalar S] (listed : c.Listed) (new ops : List (Operation S))
    (members : ∀ op ∈ ops, op ∈ new ∨ op ∈ c.ops) :
    ({ new.foldl recordVariables c with ops } : Circuit S).Listed := by
  intro x occurs
  change x ∈ (new.foldl recordVariables c).variableNames.keys
  rw [foldl_recordVariables, SortedSet.mem_keys_foldl_insert]
  rcases mem_allVariableNames.mp occurs with ⟨op, member, named⟩
  rcases members op member with isNew | isOld
  · exact .inr (mem_allVariableNames.mpr ⟨op, isNew, named⟩)
  · exact .inl (listed x (mem_allVariableNames.mpr ⟨op, isOld, named⟩))

theorem Listed.push [Scalar S] (listed : c.Listed) (op : Operation S) : (c.push op).Listed :=
  listed.record [op] _ fun o member => by
    rcases List.mem_append.mp member with old | new
    · exact .inr old
    · exact .inl new

theorem Listed.pushAll [Scalar S] (listed : c.Listed) (ops : List (Operation S)) :
    (c.pushAll ops).Listed :=
  listed.record ops _ fun _ member => (List.mem_append.mp member).symm

theorem Listed.insertAt [Scalar S] (listed : c.Listed) (i : Nat) (op : Operation S) :
    (c.insertAt i op).circuit.Listed := by
  unfold Circuit.insertAt
  split_ifs with inside
  · refine listed.record [op] _ fun o member => ?_
    rw [List.mem_singleton]
    exact (List.mem_insertIdx inside).mp member
  · exact listed

theorem Listed.emission [Scalar S] (listed : c.Listed) (e : Emission S) :
    (e.run c).circuit.Listed := by
  rcases emission_admits c e with ⟨cause, refused⟩ | ⟨op, pushed, _⟩
  · rw [refused]
    exact listed
  · rw [pushed]
    exact listed.push op

theorem Listed.removeAt (listed : c.Listed) (i : Nat) : (c.removeAt i).circuit.Listed := by
  unfold Circuit.removeAt
  cases c.ops[i]? with
  | none => exact listed
  | some op => exact listed.of_members rfl fun _ => List.mem_of_mem_eraseIdx

theorem Listed.drain (listed : c.Listed) (start stop : Nat) :
    (c.drain start stop).circuit.Listed := by
  unfold Circuit.drain
  split_ifs
  · exact listed.of_members rfl fun _ member =>
      (List.mem_append.mp member).elim List.mem_of_mem_take List.mem_of_mem_drop
  · exact listed

theorem Listed.invert [Scalar S] (listed : c.Listed) : c.invert.Listed := by
  unfold Circuit.invert
  dsimp only
  split_ifs
  · exact listed.of_names rfl fun _ => mem_allVariableNames_invertAll c.ops
  · exact listed.of_names rfl fun _ => mem_allVariableNames_invertAll c.ops

theorem Listed.reorder (listed : c.Listed) : c.reorder.Listed :=
  listed.of_members rfl fun _ => (perm_of_swaps (swaps_canonicalOrder c.ops)).mem_iff.mpr

/-! ## Removal of qubits -/

/-- The operations and the recorded variables. -/
def program (c : Circuit S) : List (Operation S) × SortedSet String :=
  (c.ops, c.variableNames)

theorem program_dropAncilla (c : Circuit S) : c.dropAncilla.circuit.program = c.program := by
  unfold dropAncilla
  split <;> rfl

theorem program_dropQubit (c : Circuit S) : c.dropQubit.circuit.program = c.program := by
  unfold dropQubit
  split <;> rfl

theorem program_releaseAncilla (c : Circuit S) (physical : Nat) :
    (c.releaseAncilla physical).circuit.program = c.program := by
  unfold releaseAncilla
  split
  · rfl
  · split
    · rfl
    · exact program_dropAncilla _

theorem program_releaseQubit (c : Circuit S) (logical physical : Nat) :
    (c.releaseQubit logical physical).circuit.program = c.program := by
  unfold releaseQubit
  split
  · rfl
  · split
    · rfl
    · split
      · exact program_dropAncilla _
      · exact program_dropQubit _

/-- A removal leaves the operations and the record. -/
theorem program_removeQubit (c : Circuit S) (logical : Nat) :
    (c.removeQubit logical).circuit.program = c.program := by
  have forgotten : ∀ (o : Outcome S Unit) (physical : Nat), o.circuit.program = c.program →
      (o.andThen fun c _ => c.forgetQubit logical physical).circuit.program = c.program := by
    intro o physical same
    unfold Outcome.andThen
    split <;> exact same
  unfold removeQubit
  split
  · rfl
  · dsimp only
    split
    · exact forgotten _ _ (program_releaseAncilla c _)
    · exact forgotten _ _ (program_releaseQubit c logical _)

theorem Listed.removeQubit (listed : c.Listed) (logical : Nat) :
    (c.removeQubit logical).circuit.Listed := by
  rcases Prod.mk.inj (program_removeQubit c logical) with ⟨ops, recorded⟩
  exact listed.of_members recorded fun op member => by rwa [ops] at member

theorem Listed.closeUp (listed : c.Listed) (logical physical : Nat) :
    (c.closeUp logical physical).Listed :=
  listed.of_names rfl fun x occurs => by
    rwa [Circuit.closeUp, allVariableNames_remapAll] at occurs

theorem Listed.stripFrom (listed : c.Listed) (force closing : Bool) (physicals : List Nat) :
    (c.stripFrom force closing physicals).circuit.Listed :=
  stripFrom_keeps Listed (fun _ l before => before.removeQubit l)
    (fun _ l p before => before.closeUp l p) listed force closing physicals

/-! ## Instances -/

variable [Scalar S]

/-- No bound variable is left exactly if none stands under a condition. -/
theorem instantiate_unbound_iff (c : Circuit S) (a : Assignment S) :
    (∀ x ∈ allVariableNames (c.instantiate a).ops, a.value? x = none) ↔
      ∀ x ∈ allConditionedVariables c.ops, a.value? x = none := by
  constructor
  · exact fun unbound x conditioned => unbound x (mem_instantiateAll_of_conditioned conditioned)
  · intro unbound x occurs
    exact (mem_allVariableNames_instantiateAll occurs).2.elim id (unbound x)

/-- The record of an instance is complete exactly if no bound variable is left. -/
theorem Listed.instantiate_iff (listed : c.Listed) (a : Assignment S) :
    (c.instantiate a).Listed ↔ ∀ x ∈ allConditionedVariables c.ops, a.value? x = none := by
  rw [← instantiate_unbound_iff]
  refine forall₂_congr fun x occurs => ?_
  have old := listed x (mem_allVariableNames_instantiateAll occurs).1
  change x ∈ (c.variableNames.filterKeys _).keys ↔ _
  rw [SortedMap.mem_keys_iff, SortedMap.contains] at old ⊢
  rw [SortedMap.find?_filterKeys]
  cases a.value? x with
  | none => simpa using old
  | some v => simp

end Circuit

/-! ## Runs -/

/-- A change of the operations of a circuit, with its arguments. -/
inductive Edit (S : Type) where
  /-- `push`. -/
  | push (op : Operation S)
  /-- `insertAt`. -/
  | insertAt (i : Nat) (op : Operation S)
  /-- `pushAll`. -/
  | pushAll (ops : List (Operation S))
  /-- A gate, a conditioned gate, a measurement, a reset or a barrier. -/
  | emission (e : Emission S)
  /-- `removeAt`. -/
  | removeAt (i : Nat)
  /-- `pop`. -/
  | pop
  /-- `drain`. -/
  | drain (start stop : Nat)
  /-- `truncate`. -/
  | truncate (length : Nat)
  /-- `clear`. -/
  | clear
  /-- `reverse`. -/
  | reverse
  /-- `invert`. -/
  | invert
  /-- `reorder`. -/
  | reorder
  /-- `stripIdle`. -/
  | stripIdle (force closing : Bool)
  /-- `ofBlock?`, which goes on with the circuit of a block if there is one. -/
  | ofBlock (ops : List (Operation S))
  /-- `instantiate`. -/
  | instantiate (a : Assignment S)

namespace Edit

variable [Scalar S]

/-- The circuit after a change, also after one that fails. -/
def run (c : Circuit S) : Edit S → Circuit S
  | .push op => c.push op
  | .insertAt i op => (c.insertAt i op).circuit
  | .pushAll ops => c.pushAll ops
  | .emission e => (e.run c).circuit
  | .removeAt i => (c.removeAt i).circuit
  | .pop => c.pop.circuit
  | .drain start stop => (c.drain start stop).circuit
  | .truncate length => c.truncate length
  | .clear => c.clear
  | .reverse => c.reverse
  | .invert => c.invert
  | .reorder => c.reorder
  | .stripIdle force closing => (c.stripIdle force closing).circuit
  | .ofBlock ops => (Circuit.ofBlock? ops).getD c
  | .instantiate a => c.instantiate a

/-- The circuit after some changes. -/
def runAll (c : Circuit S) (edits : List (Edit S)) : Circuit S :=
  edits.foldl run c

end Edit

namespace Circuit

variable [Scalar S] {c : Circuit S}

theorem listed_of_ofConfig? {config : Config} (built : ofConfig? config = some c) : c.Listed := by
  have none : c.ops = [] := by
    rcases ofConfig?_cases built with ⟨bare, rfl | ⟨_, rfl⟩, rfl | rfl⟩ <;> rfl
  intro x occurs
  rw [none] at occurs
  contradiction

theorem listed_of_ofBlock? {ops : List (Operation S)} (made : ofBlock? ops = some c) :
    c.Listed := by
  rcases Option.map_eq_some_iff.mp made with ⟨new, built, rfl⟩
  exact (listed_of_ofConfig? built).pushAll ops

/-- Every change but an instance that binds variables under conditions keeps the record complete. -/
theorem Listed.run (listed : c.Listed) {e : Edit S}
    (unbound : ∀ a, e = .instantiate a → ∀ x ∈ allConditionedVariables c.ops, a.value? x = none) :
    (e.run c).Listed := by
  cases e with
  | push op => exact listed.push op
  | insertAt i op => exact listed.insertAt i op
  | pushAll ops => exact listed.pushAll ops
  | emission e => exact listed.emission e
  | removeAt i => exact listed.removeAt i
  | pop => exact listed.of_members rfl fun _ => List.mem_of_mem_dropLast
  | drain start stop => exact listed.drain start stop
  | truncate length => exact listed.of_members rfl fun _ => List.mem_of_mem_take
  | clear => exact listed.of_members rfl fun _ member => nomatch member
  | reverse => exact listed.of_members rfl fun _ => List.mem_reverse.mp
  | invert => exact listed.invert
  | reorder => exact listed.reorder
  | stripIdle force closing => exact listed.stripFrom force closing _
  | ofBlock ops =>
      change ((ofBlock? ops).getD c).Listed
      cases made : (ofBlock? ops : Option (Circuit S)) with
      | none => exact listed
      | some new => exact listed_of_ofBlock? made
  | instantiate a => exact (listed.instantiate_iff a).mpr (unbound a rfl)

/-- In a run from a new circuit, the record is complete at every point exactly if no instance binds
a variable that stands under a condition then.  This is also the condition for an instance to leave
no bound variable. -/
theorem listed_throughout_iff {config : Config} (built : ofConfig? config = some c)
    (edits : List (Edit S)) :
    ((∀ prior, prior <+: edits → (Edit.runAll c prior).Listed) ↔
      ∀ prior a, prior ++ [.instantiate a] <+: edits →
        ∀ x ∈ allConditionedVariables (Edit.runAll c prior).ops, a.value? x = none) ∧
    ∀ (d : Circuit S) (a : Assignment S),
      (∀ x ∈ allVariableNames (d.instantiate a).ops, a.value? x = none) ↔
        ∀ x ∈ allConditionedVariables d.ops, a.value? x = none := by
  have concat : ∀ prior e, Edit.runAll c (prior ++ [e]) = e.run (Edit.runAll c prior) :=
    fun prior e => List.foldl_concat _ _ _ _
  refine ⟨⟨fun listed prior a isPrefix => ?_, fun unbound prior => ?_⟩, instantiate_unbound_iff⟩
  · have before := listed prior ((List.prefix_append prior _).trans isPrefix)
    have after := listed _ isPrefix
    rw [concat] at after
    exact (before.instantiate_iff a).mp after
  · induction prior using List.reverseRecOn with
    | nil => exact fun _ => listed_of_ofConfig? built
    | append_singleton prior e ih =>
        intro isPrefix
        rw [concat]
        refine (ih ((List.prefix_append prior _).trans isPrefix)).run ?_
        rintro a rfl
        exact unbound prior a isPrefix

/-- A rotation by `a` under a condition is taken in, and then another variable is bound. -/
theorem listed_throughout_other :
    let c : Circuit Float := ((blank Config.default).insertQubits 1 "q").insertClbits 1 "c"
    let rotation : Operation Float := .symbolic ⟨.rx, .empty, [0], [.ofVariable "a"]⟩
    let conditioned : Operation Float := .conditioned rotation ⟨⟨0, 1⟩, 1, .eq⟩
    let edits : List (Edit Float) := [.push conditioned, .instantiate (.ofList [("b", 0.5)])]
    "a" ∈ allVariableNames (Edit.runAll c edits).ops ∧
      ∀ prior, prior <+: edits → (Edit.runAll c prior).Listed := by
  intro c rotation conditioned edits
  have built : ofConfig? { Config.default with numQubits := 1, numClbits := 1 } = some c := rfl
  refine ⟨by decide +kernel, (listed_throughout_iff built edits).1.mpr ?_⟩
  rintro prior a ⟨rest, equal⟩ x occurs
  match prior, equal with
  | [_], equal =>
      rcases List.cons.inj equal with ⟨rfl, tail⟩
      obtain rfl := Edit.instantiate.inj (List.cons.inj tail).1
      have named : x = "a" := List.mem_singleton.mp occurs
      rw [named]
      decide +kernel
  | _ :: _ :: prior, equal =>
      have lengths := congrArg List.length equal
      simp [edits] at lengths

/-- The same rotation is taken in, and then `a` is bound: the rotation still refers to it, but it
is not recorded any more. -/
theorem not_listed_conditioned :
    let c : Circuit Float := ((blank Config.default).insertQubits 1 "q").insertClbits 1 "c"
    let rotation : Operation Float := .symbolic ⟨.rx, .empty, [0], [.ofVariable "a"]⟩
    let conditioned : Operation Float := .conditioned rotation ⟨⟨0, 1⟩, 1, .eq⟩
    let binding : Assignment Float := .ofList [("a", 0.5)]
    let last := Edit.runAll c [.push conditioned, .instantiate binding]
    "a" ∈ allVariableNames last.ops ∧ binding.value? "a" ≠ none ∧ ¬ last.Listed := by
  intro c rotation conditioned binding last
  have occurs : "a" ∈ allVariableNames last.ops := by decide +kernel
  have recorded : "a" ∉ last.variableNames.keys := by decide +kernel
  exact ⟨occurs, by decide +kernel, fun listed => recorded (listed "a" occurs)⟩

end Circuit

end QuantumCircuit
