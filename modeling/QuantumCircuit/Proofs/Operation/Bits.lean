import QuantumCircuit.Proofs.Operation.Blocks
import QuantumCircuit.Proofs.Operation.Renaming

/-!
# The classical bits of an operation

An operation writes bits by measuring into them, and it reads the registers of its conditions.  The
greatest bit of a list of operations is taken over what is written outside of conditions.  As long
as conditions stand on gates, this is all that is written; what is read does not count.
-/

namespace QuantumCircuit.Operation

variable {S : Type}

/-! ## What is written and read -/

mutual

/-- Every bit that is measured into, also under conditions and in blocks. -/
def measuredBits : Operation S → List Nat
  | .standard _ => []
  | .symbolic _ => []
  | .nonUnitary e => e.clbits
  | .conditioned op _ => op.measuredBits
  | .compound ops => measuredBitsAll ops
termination_by structural op => op

/-- Every bit that is measured into in a list of operations. -/
def measuredBitsAll : List (Operation S) → List Nat
  | [] => []
  | op :: ops => op.measuredBits ++ measuredBitsAll ops
termination_by structural ops => ops

end

mutual

/-- The register of every condition, also of conditions within others and in blocks. -/
def controlRegisters : Operation S → List Register
  | .standard _ => []
  | .symbolic _ => []
  | .nonUnitary _ => []
  | .conditioned op condition => condition.register :: op.controlRegisters
  | .compound ops => controlRegistersAll ops
termination_by structural op => op

/-- The register of every condition in a list of operations. -/
def controlRegistersAll : List (Operation S) → List Register
  | [] => []
  | op :: ops => op.controlRegisters ++ controlRegistersAll ops
termination_by structural ops => ops

end

mutual

/-- Whether each condition stands on a gate whose parameters are numbers. -/
def conditionsOnGates : Operation S → Bool
  | .standard _ => true
  | .symbolic _ => true
  | .nonUnitary _ => true
  | .conditioned (.standard _) _ => true
  | .conditioned _ _ => false
  | .compound ops => allConditionsOnGates ops
termination_by structural op => op

/-- Whether each condition in a list of operations stands on a gate whose parameters are numbers. -/
def allConditionsOnGates : List (Operation S) → Bool
  | [] => true
  | op :: ops => op.conditionsOnGates && allConditionsOnGates ops
termination_by structural ops => ops

end

mutual

/-- No block stands under a condition if gates do. -/
theorem conditionsPlain_of_onGates : ∀ op : Operation S, op.conditionsOnGates = true →
    op.conditionsPlain = true
  | .standard _, _ => rfl
  | .symbolic _, _ => rfl
  | .nonUnitary _, _ => rfl
  | .conditioned (.standard _) _, _ => rfl
  | .conditioned (.symbolic _) _, onGate => by contradiction
  | .conditioned (.nonUnitary _) _, onGate => by contradiction
  | .conditioned (.conditioned _ _) _, onGate => by contradiction
  | .conditioned (.compound _) _, onGate => by contradiction
  | .compound ops, onGates => allConditionsPlain_of_onGates ops onGates

theorem allConditionsPlain_of_onGates : ∀ ops : List (Operation S),
    allConditionsOnGates ops = true → allConditionsPlain ops = true
  | [], _ => rfl
  | op :: ops, onGates => by
      obtain ⟨first, rest⟩ := Bool.and_eq_true_iff.mp onGates
      exact Bool.and_eq_true_iff.mpr ⟨conditionsPlain_of_onGates op first,
        allConditionsPlain_of_onGates ops rest⟩

end

/-! ## Appended lists -/

theorem occurrencesAll_append (first second : List (Operation S)) :
    occurrencesAll (first ++ second) = occurrencesAll first ++ occurrencesAll second := by
  induction first with
  | nil => rfl
  | cons op first ih =>
      rw [List.cons_append, occurrencesAll, occurrencesAll, ih, List.append_assoc]

theorem measuredBitsAll_append (first second : List (Operation S)) :
    measuredBitsAll (first ++ second) = measuredBitsAll first ++ measuredBitsAll second := by
  induction first with
  | nil => rfl
  | cons op first ih =>
      rw [List.cons_append, measuredBitsAll, measuredBitsAll, ih, List.append_assoc]

theorem controlRegistersAll_append (first second : List (Operation S)) :
    controlRegistersAll (first ++ second) =
      controlRegistersAll first ++ controlRegistersAll second := by
  induction first with
  | nil => rfl
  | cons op first ih =>
      rw [List.cons_append, controlRegistersAll, controlRegistersAll, ih, List.append_assoc]

theorem allConditionsOnGates_append (first second : List (Operation S)) :
    allConditionsOnGates (first ++ second) =
      (allConditionsOnGates first && allConditionsOnGates second) := by
  induction first with
  | nil => rfl
  | cons op first ih =>
      rw [List.cons_append, allConditionsOnGates, allConditionsOnGates, ih, Bool.and_assoc]

theorem transparent_occurrencesAll :
    Transparent (occurrencesAll : List (Operation S) → List Nat) := by
  intro before ops after
  rw [occurrencesAll_append, occurrencesAll_append, occurrencesAll_append, occurrencesAll,
    occurrences, List.append_assoc]

theorem transparent_measuredBitsAll :
    Transparent (measuredBitsAll : List (Operation S) → List Nat) := by
  intro before ops after
  rw [measuredBitsAll_append, measuredBitsAll_append, measuredBitsAll_append, measuredBitsAll,
    measuredBits, List.append_assoc]

theorem transparent_controlRegistersAll :
    Transparent (controlRegistersAll : List (Operation S) → List Register) := by
  intro before ops after
  rw [controlRegistersAll_append, controlRegistersAll_append, controlRegistersAll_append,
    controlRegistersAll, controlRegisters, List.append_assoc]

theorem transparent_allConditionsOnGates :
    Transparent (allConditionsOnGates : List (Operation S) → Bool) := by
  intro before ops after
  rw [allConditionsOnGates_append, allConditionsOnGates_append, allConditionsOnGates_append,
    allConditionsOnGates, conditionsOnGates, Bool.and_assoc]

/-! ## The greatest bit -/

/-- The greatest of some numbers, if there is one, bounds them all. -/
theorem forall_mem_max?_lt_iff {l : List Nat} {n : Nat} :
    (∀ b ∈ l.max?, b < n) ↔ ∀ b ∈ l, b < n := by
  cases greatest : l.max? with
  | none =>
      rw [List.max?_eq_none_iff] at greatest
      simp [greatest]
  | some w =>
      obtain ⟨member, bounds⟩ := List.max?_eq_some_iff.mp greatest
      simp only [Option.mem_some_iff, forall_eq']
      exact ⟨fun below b listed => Nat.lt_of_le_of_lt (bounds b listed) below,
        fun below => below w member⟩

theorem forall_mem_highestClbitAll?_cons {op : Operation S} {ops : List (Operation S)} {n : Nat} :
    (∀ b ∈ highestClbitAll? (op :: ops), b < n) ↔
      (∀ b ∈ op.highestClbit?, b < n) ∧ ∀ b ∈ highestClbitAll? ops, b < n := by
  rw [highestClbitAll?]
  cases op.highestClbit? with
  | none => simp
  | some b =>
      cases highestClbitAll? ops with
      | none => simp
      | some c =>
          simp only [Option.mem_def, Option.some.injEq, forall_eq']
          exact Nat.max_lt

mutual

/-- Where conditions stand on gates, the greatest bit bounds all bits that are measured into. -/
theorem highestClbit?_lt_iff {n : Nat} : ∀ op : Operation S, op.conditionsOnGates = true →
    ((∀ b ∈ op.highestClbit?, b < n) ↔ ∀ b ∈ op.measuredBits, b < n)
  | .standard _, _ => by simp [highestClbit?, measuredBits]
  | .symbolic _, _ => by simp [highestClbit?, measuredBits]
  | .nonUnitary _, _ => forall_mem_max?_lt_iff
  | .conditioned (.standard _) _, _ => by simp [highestClbit?, measuredBits]
  | .conditioned (.symbolic _) _, onGate => by contradiction
  | .conditioned (.nonUnitary _) _, onGate => by contradiction
  | .conditioned (.conditioned _ _) _, onGate => by contradiction
  | .conditioned (.compound _) _, onGate => by contradiction
  | .compound ops, onGates => highestClbitAll?_lt_iff ops onGates

theorem highestClbitAll?_lt_iff {n : Nat} : ∀ ops : List (Operation S),
    allConditionsOnGates ops = true →
    ((∀ b ∈ highestClbitAll? ops, b < n) ↔ ∀ b ∈ measuredBitsAll ops, b < n)
  | [], _ => by simp [highestClbitAll?, measuredBitsAll]
  | op :: ops, onGates => by
      obtain ⟨first, rest⟩ := Bool.and_eq_true_iff.mp onGates
      rw [forall_mem_highestClbitAll?_cons, measuredBitsAll, List.forall_mem_append,
        highestClbit?_lt_iff op first, highestClbitAll?_lt_iff ops rest]

end

/-- The greatest bit as a circuit of the operations takes it. -/
theorem greatestClbit_lt_iff {ops : List (Operation S)} {n : Nat} :
    (∀ b ∈ (ops.filterMap highestClbit?).max?, b < n) ↔ ∀ b ∈ highestClbitAll? ops, b < n := by
  rw [forall_mem_max?_lt_iff]
  induction ops with
  | nil => simp [highestClbitAll?]
  | cons op ops ih =>
      rw [forall_mem_highestClbitAll?_cons, ← ih]
      simp only [List.mem_filterMap, List.mem_cons, exists_eq_or_imp, or_imp, forall_and,
        Option.mem_def]

end QuantumCircuit.Operation
