import Mathlib.Algebra.Order.BigOperators.Group.List
import Mathlib.Algebra.Order.Group.Nat
import Mathlib.Data.Set.Function
import QuantumCircuit.Circuit.Statistics
import QuantumCircuit.Circuit.Strip
import QuantumCircuit.Operation.Inverse
import QuantumCircuit.Proofs.Operation.Touched

/-!
# Renaming the qubits of a circuit

Renaming goes through the structure of an operation, so it commutes with composing names, with
listing the qubits that are touched, and with taking adjoints, whatever the new names are.  Names
that are given twice make qubits coincide, and with them the controls of a gate.  As long as the
qubits that occur get different names, nothing that is counted or decided by comparing qubits
changes.  Outside of these qubits the names do not matter, so they may as well be different
everywhere.
-/

namespace QuantumCircuit

/-! ## Gates -/

namespace Gate

variable {S P : Type} [Scalar S] [GateParameter S P]

theorem invertTargets_map (f : Nat → Nat) (kind : OpKind) (targets : List Nat) :
    invertTargets kind (targets.map f) = (invertTargets kind targets).map f := by
  cases kind with
  | dcx => rcases targets with _ | ⟨a, _ | ⟨b, _ | ⟨c, rest⟩⟩⟩ <;> rfl
  | _ => rfl

theorem invert_remapGate (f : Nat → Nat) (g : Gate P) :
    (Operation.remapGate f g).invert = Operation.remapGate f g.invert :=
  congrArg (Gate.mk _ _ · _) (invertTargets_map f g.kind g.targets)

end Gate

namespace Operation

variable {S : Type} {f : Nat → Nat}

/-! ## Adjoints -/

theorem remapAll_eq_map (f : Nat → Nat) (ops : List (Operation S)) :
    remapAll f ops = ops.map (remap f) := by
  induction ops with
  | nil => rfl
  | cons op ops ih => exact congrArg (op.remap f :: ·) ih

section Adjoints

variable [Scalar S]

mutual

/-- The adjoint of a renamed operation is the renamed adjoint. -/
theorem invert_remap (f : Nat → Nat) : ∀ op : Operation S,
    (op.remap f).invert = op.invert.remap f
  | .standard g => congrArg standard (Gate.invert_remapGate f g)
  | .symbolic g => congrArg symbolic (Gate.invert_remapGate f g)
  | .nonUnitary _ => rfl
  | .conditioned op c => congrArg (conditioned · c) (invert_remap f op)
  | .compound ops => by
      change compound (invertEach (remapAll f ops)).reverse =
        compound (remapAll f (invertEach ops).reverse)
      rw [invertEach_remapAll f ops, remapAll_eq_map, remapAll_eq_map, List.map_reverse]

theorem invertEach_remapAll (f : Nat → Nat) : ∀ ops : List (Operation S),
    invertEach (remapAll f ops) = remapAll f (invertEach ops)
  | [] => rfl
  | op :: ops => congrArg₂ List.cons (invert_remap f op) (invertEach_remapAll f ops)

end

end Adjoints

/-! ## Touched qubits -/

/-- The list of touched qubits is renamed along. -/
theorem usedQubits_remap (f : Nat → Nat) (op : Operation S) :
    (op.remap f).usedQubits = SortedSet.ofList (op.usedQubits.keys.map f) := by
  apply SortedSet.ext_keys
  intro q
  rw [mem_usedQubits_iff_actsOn, actsOn_remap, SortedSet.mem_keys_ofList, List.mem_map]
  simp only [mem_usedQubits_iff_actsOn]

theorem size_usedQubits_remap (injective : Function.Injective f) (op : Operation S) :
    (op.remap f).usedQubits.size = op.usedQubits.size := by
  rw [usedQubits_remap, SortedSet.size_ofList (op.usedQubits.nodup_keys.map injective),
    List.length_map, SortedMap.keys, List.length_map]
  rfl

theorem kind_remap (f : Nat → Nat) (op : Operation S) : (op.remap f).kind = op.kind := by
  cases op <;> rfl

/-! ## Counts -/

mutual

theorem individualCount_remap (f : Nat → Nat) : ∀ op : Operation S,
    (op.remap f).individualCount = op.individualCount
  | .standard _ => rfl
  | .symbolic _ => rfl
  | .nonUnitary _ => rfl
  | .conditioned _ _ => rfl
  | .compound ops => individualCountAll_remapAll f ops

theorem individualCountAll_remapAll (f : Nat → Nat) : ∀ ops : List (Operation S),
    individualCountAll (remapAll f ops) = individualCountAll ops
  | [] => rfl
  | op :: ops => congrArg₂ (· + ·) (individualCount_remap f op) (individualCountAll_remapAll f ops)

end

theorem singleQubitGate_remap (injective : Function.Injective f) (op : Operation S) :
    singleQubitGate (op.remap f) = singleQubitGate op := by
  rw [singleQubitGate, kind_remap, size_usedQubits_remap injective]
  rfl

mutual

/-- Different names keep a gate on one qubit, or on several. -/
theorem singleQubitCount_remap (injective : Function.Injective f) : ∀ op : Operation S,
    (op.remap f).singleQubitCount = op.singleQubitCount
  | .standard g => singleQubitGate_remap injective (.standard g)
  | .symbolic g => singleQubitGate_remap injective (.symbolic g)
  | .nonUnitary _ => rfl
  | .conditioned _ _ => rfl
  | .compound ops => singleQubitCountAll_remapAll injective ops

theorem singleQubitCountAll_remapAll (injective : Function.Injective f) :
    ∀ ops : List (Operation S),
      singleQubitCountAll (remapAll f ops) = singleQubitCountAll ops
  | [] => rfl
  | op :: ops => congrArg₂ (· + ·) (singleQubitCount_remap injective op)
      (singleQubitCountAll_remapAll injective ops)

end

/-! ## Mid-circuit effects -/

/-- A renamed gate acts on a renamed measured qubit where the gate acts on the measured one. -/
theorem measuredAfterGate?_remap (injective : Function.Injective f) (measured : List Nat)
    (op : Operation S) : measuredAfterGate? (measured.map f) (op.remap f) =
      (measuredAfterGate? measured op).map (List.map f) := by
  have touches : (op.remap f).usedQubits.keys.any (measured.map f).contains =
      op.usedQubits.keys.any measured.contains := by
    rw [Bool.eq_iff_iff, List.any_eq_true, List.any_eq_true]
    simp only [usedQubits_remap, SortedSet.mem_keys_ofList, List.contains_iff_mem, List.mem_map,
      exists_exists_and_eq_and, injective.eq_iff, exists_eq_right]
  rw [measuredAfterGate?, measuredAfterGate?, kind_remap, touches]
  split <;> rfl

mutual

/-- The scan of a renamed operation keeps the renamed qubits, and stops where it would have
stopped. -/
theorem measuredAfter?_remap (injective : Function.Injective f) (measured : List Nat) :
    ∀ op : Operation S, (op.remap f).measuredAfter? (measured.map f) =
      (op.measuredAfter? measured).map (List.map f)
  | .standard g => measuredAfterGate?_remap injective measured (.standard g)
  | .symbolic g => measuredAfterGate?_remap injective measured (.symbolic g)
  | .nonUnitary e => by
      rw [remap, measuredAfter?, measuredAfter?]
      split
      · rfl
      · rw [Option.map_some, List.map_append]
  | .conditioned _ _ => rfl
  | .compound ops => measuredAfterAll?_remapAll injective measured ops

theorem measuredAfterAll?_remapAll (injective : Function.Injective f) (measured : List Nat) :
    ∀ ops : List (Operation S), measuredAfterAll? (measured.map f) (remapAll f ops) =
      (measuredAfterAll? measured ops).map (List.map f)
  | [] => rfl
  | op :: ops => by
      rw [remapAll, measuredAfterAll?, measuredAfterAll?,
        measuredAfter?_remap injective measured op]
      cases op.measuredAfter? measured with
      | none => rfl
      | some next => exact measuredAfterAll?_remapAll injective next ops

end

end Operation

/-! ## Circuits -/

/-- Names that are different for the numbers of a list can be made different for all numbers. -/
theorem exists_injective_of_injOn {f : Nat → Nat} {l : List Nat}
    (different : Set.InjOn f {q | q ∈ l}) :
    ∃ g : Nat → Nat, Function.Injective g ∧ ∀ q ∈ l, f q = g q := by
  -- The other numbers are moved behind all names that are given.
  obtain ⟨bound, below⟩ : ∃ bound, ∀ q ∈ l, f q < bound :=
    ⟨(l.map f).sum + 1, fun q mem =>
      Nat.lt_succ_of_le (List.le_sum_of_mem (List.mem_map_of_mem mem))⟩
  refine ⟨fun q => if q ∈ l then f q else q + bound, fun p q same => ?_, fun q mem => ?_⟩
  · simp only at same
    split_ifs at same with memP memQ memQ
    · exact different memP memQ same
    · have := below p memP
      omega
    · have := below q memQ
      omega
    · exact Nat.add_right_cancel same
  · exact (if_pos mem).symm

namespace Circuit

open Operation

variable {S : Type}

/-- A circuit with its qubits renamed in all operations. -/
def renameQubits (f : Nat → Nat) (c : Circuit S) : Circuit S :=
  { c with ops := remapAll f c.ops }

theorem renameQubits_congr {f g : Nat → Nat} {c : Circuit S}
    (agree : ∀ q ∈ occurrencesAll c.ops, f q = g q) : c.renameQubits f = c.renameQubits g := by
  rw [renameQubits, renameQubits, remapAll_congr agree]

theorem isDynamic_renameQubits {f : Nat → Nat} (injective : Function.Injective f)
    (c : Circuit S) : (c.renameQubits f).isDynamic = c.isDynamic := by
  have scan := measuredAfterAll?_remapAll injective [] c.ops
  rw [List.map_nil] at scan
  rw [isDynamic, isDynamic, renameQubits, scan, Option.isNone_map]

/-- Renaming twice is renaming by the composition, the qubits that an operation touches are renamed
along, and the adjoint of a renamed operation is the renamed adjoint, whatever the names are and
however blocks and conditions are nested.  If the qubits that occur in a circuit get different
names, as they do under every injective renaming, then the number of operations, the number of gates
on one qubit, and whether the circuit is dynamic stay the same. -/
theorem renaming_lawful [Scalar S] (f : Nat → Nat) :
    (∀ op : Operation S, (∀ g : Nat → Nat, (op.remap f).remap g = op.remap (g ∘ f)) ∧
      (op.remap f).usedQubits = SortedSet.ofList (op.usedQubits.keys.map f) ∧
      (op.remap f).invert = op.invert.remap f) ∧
    ∀ c : Circuit S, Set.InjOn f {q | q ∈ occurrencesAll c.ops} →
      (c.renameQubits f).numIndividualOps = c.numIndividualOps ∧
      (c.renameQubits f).numSingleQubitOps = c.numSingleQubitOps ∧
      (c.renameQubits f).isDynamic = c.isDynamic := by
  refine ⟨fun op => ⟨fun g => remap_remap f g op, usedQubits_remap f op, invert_remap f op⟩, ?_⟩
  intro c different
  obtain ⟨g, injective, agree⟩ := exists_injective_of_injOn different
  rw [renameQubits_congr agree]
  exact ⟨individualCountAll_remapAll g c.ops, singleQubitCountAll_remapAll injective c.ops,
    isDynamic_renameQubits injective c⟩

/-- The indices above a removed qubit are closed up: not all numbers get names of their own, but
the qubits that occur do. -/
theorem renaming_lawful_closing :
    let exchange : Operation Float := .standard ⟨.dcx, .empty, [0, 3], []⟩
    let hidden : Operation Float := .conditioned (.compound [exchange]) ⟨⟨0, 1⟩, 1, .eq⟩
    let single : Operation Float := .standard ⟨.h, .empty, [2], []⟩
    let block : Operation Float := .compound [.nonUnitary (.ofMeasure [3] [0]), single, exchange]
    let c : Circuit Float := { (default : Circuit Float) with ops := [block, hidden] }
    ¬ Function.Injective (closeGap 1) ∧ Set.InjOn (closeGap 1) {q | q ∈ occurrencesAll c.ops} ∧
      (c.renameQubits (closeGap 1)).numIndividualOps = c.numIndividualOps ∧
      (c.renameQubits (closeGap 1)).numSingleQubitOps = c.numSingleQubitOps ∧
      (c.renameQubits (closeGap 1)).isDynamic = c.isDynamic ∧ c.numSingleQubitOps = 1 ∧
      c.isDynamic = true := by
  intro exchange hidden single block c
  have different : ∀ p ∈ occurrencesAll c.ops, ∀ q ∈ occurrencesAll c.ops,
      closeGap 1 p = closeGap 1 q → p = q := by decide +kernel
  have injOn : Set.InjOn (closeGap 1) {q | q ∈ occurrencesAll c.ops} :=
    fun p memP q memQ => different p memP q memQ
  obtain ⟨individual, singles, dynamic⟩ := (renaming_lawful (closeGap 1)).2 c injOn
  have merged : ¬ Function.Injective (closeGap 1) :=
    fun injective => absurd (@injective 1 2 rfl) (by decide)
  exact ⟨merged, injOn, individual, singles, dynamic, by decide +kernel, by decide +kernel⟩

end Circuit

end QuantumCircuit
