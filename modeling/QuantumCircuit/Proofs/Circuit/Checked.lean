import QuantumCircuit.Proofs.Circuit.Rebuild
import QuantumCircuit.Proofs.Circuit.Removal

/-!
# Circuits whose leaves pass the checks

Operations come in through emissions, or in blocks of leaves that emissions would have let in.
Later steps change the circuit that the checks were made for: more registers come in, and idle
qubits are removed and the indices above them closed up.  The leaves still pass the checks then,
since no qubit of theirs is idle, and a qubit that is kept has a new index below the new size.
-/

namespace QuantumCircuit

open Operation

variable {S : Type}

/-- Whether a step adds a register, removes idle qubits and closes up, or takes operations in: one
by an emission, or a block whose leaves pass the checks of emissions. -/
def Step.Checks [Scalar S] (c : Circuit S) : Step S → Prop
  | .addQubitRegister _ _ => True
  | .addClassicalRegister _ _ => True
  | .addAncillaryRegister _ _ => True
  | .stripIdle _ closing => closing = true
  | .program ops variableNames globalPhase =>
      (∃ e : Emission S, (e.run c).circuit = { c with ops, variableNames, globalPhase }) ∨
        ∃ block : List (Operation S), (∀ leaf ∈ leavesAll block, c.Admits leaf) ∧
          c.push (.compound block) = { c with ops, variableNames, globalPhase }
  | _ => False

namespace Circuit

/-- Whether the indices of a circuit have no gaps, and all leaves of its operations pass the checks
of emissions. -/
structure Checked (c : Circuit S) : Prop where
  /-- Physical and logical indices are those below the number of qubits, matched one to one. -/
  layout : Layout.Bijective c.initialLayout c.numTotalQubits
  /-- The leaves pass the checks. -/
  admits : ∀ leaf ∈ leavesAll c.ops, c.Admits leaf

variable {c d : Circuit S}

/-! ## Steps -/

/-- The leaves of a circuit pass the checks of one that is as large. -/
theorem Checked.widens (checked : c.Checked) (wider : c.Widens d)
    (layout : Layout.Bijective d.initialLayout d.numTotalQubits) : d.Checked where
  layout := layout
  admits leaf mem := by
    rw [wider.ops] at mem
    exact (checked.admits leaf mem).mono wider.qubits wider.clbits

theorem Checked.insertQubits (checked : c.Checked) (n : Nat) (name : String) :
    (c.insertQubits n name).Checked := by
  refine checked.widens (widens_insertQubits c n name) ?_
  have total : (c.insertQubits n name).numTotalQubits = c.numTotalQubits + n :=
    Nat.add_right_comm _ _ _
  rw [total]
  exact Layout.Bijective.extend checked.layout n

theorem Checked.insertAncillae (checked : c.Checked) (n : Nat) (name : String) :
    (c.insertAncillae n name).Checked := by
  refine checked.widens (widens_insertAncillae c n name) ?_
  have total : (c.insertAncillae n name).numTotalQubits = c.numTotalQubits + n :=
    (Nat.add_assoc _ _ _).symm
  rw [total]
  exact Layout.Bijective.extend checked.layout n

theorem Checked.insertClbits (checked : c.Checked) (n : Nat) (name : String) :
    (c.insertClbits n name).Checked :=
  checked.widens (widens_insertClbits c n name) checked.layout

/-- An operation whose leaves pass the checks can be appended. -/
theorem Checked.push [Scalar S] (checked : c.Checked) {op : Operation S}
    (passed : ∀ leaf ∈ op.leaves, c.Admits leaf) : (c.push op).Checked where
  layout := checked.layout
  admits := by
    have leaves : leavesAll (c.push op).ops = leavesAll c.ops ++ op.leaves := by
      change leavesAll (c.ops ++ [op]) = _
      rw [leavesAll_append, leavesAll, leavesAll, List.append_nil]
    rw [leaves]
    exact List.forall_mem_append.mpr
      ⟨fun leaf mem => (checked.admits leaf mem).mono (Nat.le_refl _) (Nat.le_refl _),
        fun leaf mem => (passed leaf mem).mono (Nat.le_refl _) (Nat.le_refl _)⟩

/-- What an emission appends passes the checks. -/
theorem Checked.emission [Scalar S] (checked : c.Checked) (e : Emission S) :
    (e.run c).circuit.Checked := by
  rcases emission_admits c e with ⟨_, refused⟩ | ⟨op, pushed, admits⟩
  · rw [refused]
    exact checked
  · rw [pushed]
    refine checked.push fun leaf mem => ?_
    rw [admits.leaves_eq, List.mem_singleton] at mem
    exact mem ▸ admits

/-- Removing an idle qubit and closing up renames the qubits of the leaves, none of which is the
removed one. -/
theorem Checked.close (checked : c.Checked) {p l : Nat} (held : c.initialLayout.find? p = some l)
    (idle : c.isIdle p = true) {removed : Circuit S}
    (total : removed.numTotalQubits + 1 = c.numTotalQubits)
    (clbits : removed.numClbits = c.numClbits) (ops : removed.ops = c.ops)
    (layout : removed.initialLayout = c.initialLayout.erase p) :
    (removed.closeUp l p).Checked where
  layout := by
    change Layout.Bijective (closeLayout l p removed.initialLayout) removed.numTotalQubits
    rw [layout]
    exact Layout.Bijective.closed (total ▸ checked.layout) held
      (find?_closeLayout_erase c.initialLayout l p)
  admits renamed mem := by
    change renamed ∈ leavesAll (remapAll (closeGap p) removed.ops) at mem
    rw [ops, leavesAll_remapAll, List.mem_map] at mem
    obtain ⟨leaf, mem, rfl⟩ := mem
    have admits := checked.admits leaf mem
    refine admits.remap (fun q occurs => ?_) clbits.ge
    have other : q ≠ p := by
      rintro rfl
      rw [isIdle, anyActsOn_of_mem_leavesAll (admits.actsOn occurs) mem] at idle
      contradiction
    have below := admits.occurrences_lt q occurs
    have removedBelow := checked.layout.lt held
    change closeGap p q < removed.numTotalQubits
    unfold closeGap
    split_ifs <;> omega

/-- Stripping with closing up renames qubits, and it does so as well if it breaks off. -/
theorem Checked.stripFrom (checked : c.Checked) (force : Bool) (candidates : List Nat) :
    (c.stripFrom force true candidates).circuit.Checked := by
  induction candidates generalizing c with
  | nil => exact checked
  | cons p rest ih =>
      rw [Circuit.stripFrom]
      split
      · exact ih checked
      · next l held =>
          split
          · exact ih checked
          · next dropped =>
              have idle : c.isIdle p = true := by
                rw [Bool.not_eq_true, Bool.or_eq_false_iff, Bool.not_eq_false'] at dropped
                exact dropped.1
              rcases removeQubit_outcome c l with ⟨_, _, _, failed⟩ |
                ⟨p', _, _, _, _, found, total, done⟩
              · rw [failed]
                exact ⟨checked.layout, fun leaf mem =>
                  (checked.admits leaf mem).mono (Nat.le_refl _) (Nat.le_refl _)⟩
              · obtain rfl : p = p' :=
                  Option.some.inj ((physicalOf?_eq_some checked.layout held).symm.trans found)
                rw [done]
                exact ih (checked.close held idle total rfl rfl rfl)

/-- Each of these steps leaves a circuit whose leaves pass the checks. -/
theorem Checked.run [Scalar S] (checked : c.Checked) {s : Step S} (checks : s.Checks c) :
    (s.run c).Checked := by
  cases s with
  | addQubitRegister n name =>
      rw [Step.run]
      rcases addQubitRegister_cases c n name with ⟨_, failed⟩ | ⟨_, added⟩ | ⟨_, added⟩
      · rw [failed]
        exact checked
      · rw [added]
        exact checked
      · rw [added]
        exact checked.insertQubits n name
  | addClassicalRegister n name =>
      rw [Step.run, addClassicalRegister]
      split_ifs
      · exact checked
      · exact checked
      · exact checked.insertClbits n name
      · exact checked
  | addAncillaryRegister n name =>
      rw [Step.run]
      rcases addAncillaryRegister_cases c n name with ⟨_, failed⟩ | ⟨_, added⟩ | ⟨_, added⟩
      · rw [failed]
        exact checked
      · rw [added]
        exact checked
      · rw [added]
        exact checked.insertAncillae n name
  | stripIdle force closing =>
      obtain rfl : closing = true := checks
      exact checked.stripFrom force _
  | program ops variableNames globalPhase =>
      rw [Step.run]
      rcases checks with ⟨e, emitted⟩ | ⟨block, passed, pushed⟩
      · rw [← emitted]
        exact checked.emission e
      · rw [← pushed]
        exact checked.push passed
  | _ => exact absurd checks id

/-- The leaves of a circuit that is built in these ways pass its checks. -/
theorem Reachable.checked [Scalar S] (built : Reachable Step.Checks c) : c.Checked := by
  refine built.invariant (fun {config c} start => ?_) fun checks checked => checked.run checks
  have empty : Checked (blank config : Circuit S) :=
    ⟨Layout.bijective_empty, List.forall_mem_nil _⟩
  rcases ofConfig?_cases start with ⟨bare, rfl | ⟨_, rfl⟩, rfl | rfl⟩
  · exact empty
  · exact empty.insertClbits _ _
  · exact empty.insertQubits _ _
  · exact (empty.insertQubits _ _).insertClbits _ _

end Circuit

end QuantumCircuit
