import Mathlib.Data.Bool.Basic
import Mathlib.Tactic.SplitIfs
import QuantumCircuit.Circuit.Qubits
import QuantumCircuit.Circuit.Registers

/-!
# Adding qubits

An addition fails and leaves the circuit as it is, or all of it is done.  The lemmas of this file
say what is there afterwards, and which checks it has passed.
-/

namespace QuantumCircuit.Circuit

open Registers

variable {S : Type}

theorem addQubitRegister_cases (c : Circuit S) (n : Nat) (name : String) :
    (∃ failure, c.addQubitRegister n name = ⟨c, .error failure⟩) ∨
    (n = 0 ∧ c.addQubitRegister n name = c.done ()) ∨
    (blocked c.qregs name c.numTotalQubits = false ∧
      c.addQubitRegister n name = (c.insertQubits n name).done ()) := by
  unfold addQubitRegister
  split_ifs with _ isBlocked zero
  · exact .inl ⟨_, rfl⟩
  · exact .inl ⟨_, rfl⟩
  · exact .inr (.inl ⟨zero, rfl⟩)
  · exact .inr (.inr ⟨Bool.eq_false_of_not_eq_true isBlocked, rfl⟩)
  · exact .inl ⟨_, rfl⟩

theorem addAncillaryRegister_cases (c : Circuit S) (n : Nat) (name : String) :
    (∃ failure, c.addAncillaryRegister n name = ⟨c, .error failure⟩) ∨
    (n = 0 ∧ c.addAncillaryRegister n name = c.done ()) ∨
    (blocked c.ancregs name c.numTotalQubits = false ∧
      c.addAncillaryRegister n name = (c.insertAncillae n name).done ()) := by
  unfold addAncillaryRegister
  split_ifs with isBlocked zero
  · exact .inl ⟨_, rfl⟩
  · exact .inr (.inl ⟨zero, rfl⟩)
  · exact .inr (.inr ⟨Bool.eq_false_of_not_eq_true isBlocked, rfl⟩)
  · exact .inl ⟨_, rfl⟩

theorem addQubit_cases (c : Circuit S) (l p : Nat) (output : Option Nat) :
    (∃ failure, c.addQubit l p output = ⟨c, .error failure⟩) ∨
    (c.initialLayout.contains p = false ∧ c.outputPermutation.contains p = false ∧
      l ≤ c.numQubits ∧
      c.addQubit l p output = done
        { c with
          qregs := add c.qregs p c.qregName
          numQubits := c.numQubits + 1
          initialLayout := c.initialLayout.insert p l
          outputPermutation := insertOutput c.outputPermutation p output
          ancillary := c.ancillary.insertIdx l false
          garbage := c.garbage.insertIdx l false } ()) := by
  unfold addQubit
  split_ifs with taken large
  · exact .inl ⟨_, rfl⟩
  · exact .inl ⟨_, rfl⟩
  · exact .inl ⟨_, rfl⟩
  · obtain ⟨initial, output⟩ := Bool.or_eq_false_iff.mp (Bool.eq_false_of_not_eq_true taken)
    exact .inr ⟨initial, output, Nat.not_lt.mp large, rfl⟩

theorem addAncillaryQubit_cases (c : Circuit S) (p : Nat) (output : Option Nat) :
    (∃ failure, c.addAncillaryQubit p output = ⟨c, .error failure⟩) ∨
    (c.initialLayout.contains p = false ∧ c.outputPermutation.contains p = false ∧
      c.addAncillaryQubit p output = done
        { c with
          ancregs := add c.ancregs p c.ancregName
          numAncillae := c.numAncillae + 1
          ancillary := resize c.ancillary c.numTotalQubits false ++ [true]
          garbage := resize c.garbage c.numTotalQubits false ++ [output.isNone]
          initialLayout := c.initialLayout.insert p c.numTotalQubits
          outputPermutation := insertOutput c.outputPermutation p output } ()) := by
  unfold addAncillaryQubit
  dsimp only
  split_ifs with taken
  · exact .inl ⟨_, rfl⟩
  · exact .inl ⟨_, rfl⟩
  · obtain ⟨initial, output⟩ := Bool.or_eq_false_iff.mp (Bool.eq_false_of_not_eq_true taken)
    exact .inr ⟨initial, output, rfl⟩

end QuantumCircuit.Circuit
