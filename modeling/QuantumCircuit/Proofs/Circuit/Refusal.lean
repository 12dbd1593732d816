import QuantumCircuit.Circuit.Measurements
import QuantumCircuit.Circuit.Qubits
import QuantumCircuit.Proofs.Circuit.Admission
import QuantumCircuit.Proofs.Registers.Cover

/-!
# Refused requests

A request checks its arguments first and changes the circuit afterwards.  Where it calls other
steps after a change, these could still be refused by themselves, but what was checked at the start
excludes it: `Unrefused` is what holds of them, `Atomic` is what holds of the request.
-/

namespace QuantumCircuit

variable {S α β : Type}

/-! ## Outcomes -/

/-- An outcome that is no refusal. -/
def Outcome.Unrefused (o : Outcome S α) : Prop :=
  ∀ cause, o.answer ≠ .error (.refused cause)

/-- An outcome that leaves the circuit if it is a refusal. -/
def Outcome.Atomic (o : Outcome S α) (c : Circuit S) : Prop :=
  ∀ cause, o.answer = .error (.refused cause) → o.circuit = c

namespace Outcome

variable {o : Outcome S α} {next : Circuit S → α → Outcome S β} {c : Circuit S}

@[simp]
theorem unrefused_done (c : Circuit S) (a : α) : (c.done a).Unrefused :=
  fun _ refused => nomatch refused

@[simp]
theorem unrefused_fault (c : Circuit S) : (c.fault : Outcome S α).Unrefused :=
  fun _ refused => nomatch refused

@[simp]
theorem atomic_refuse (c : Circuit S) (cause : CircuitError) :
    (c.refuse cause : Outcome S α).Atomic c :=
  fun _ _ => rfl

theorem Unrefused.atomic (unrefused : o.Unrefused) (c : Circuit S) : o.Atomic c :=
  fun cause refused => absurd refused (unrefused cause)

@[simp]
theorem atomic_done (c rest : Circuit S) (a : α) : (rest.done a).Atomic c :=
  (unrefused_done rest a).atomic c

@[simp]
theorem atomic_fault (c rest : Circuit S) : (rest.fault : Outcome S α).Atomic c :=
  (unrefused_fault rest).atomic c

/-- Steps that are not refused are not refused one after the other. -/
theorem Unrefused.andThen (first : o.Unrefused)
    (second : ∀ a, o.answer = .ok a → (next o.circuit a).Unrefused) :
    (o.andThen next).Unrefused := by
  intro cause refused
  unfold Outcome.andThen at refused
  cases answer : o.answer with
  | ok a =>
      rw [answer] at refused
      exact second a answer cause refused
  | error failure =>
      rw [answer] at refused
      obtain rfl := Except.error.inj refused
      exact first cause answer

/-- After a first step that leaves the circuit on refusal, no other may be refused. -/
theorem Atomic.andThen (first : o.Atomic c)
    (second : ∀ a, o.answer = .ok a → (next o.circuit a).Unrefused) :
    (o.andThen next).Atomic c := by
  intro cause refused
  unfold Outcome.andThen at refused ⊢
  cases answer : o.answer with
  | ok a =>
      rw [answer] at refused
      exact absurd refused (second a answer cause)
  | error failure =>
      rw [answer] at refused
      obtain rfl := Except.error.inj refused
      exact first cause answer

end Outcome

namespace Circuit

open Outcome

/-! ## Registers -/

theorem addQubitRegister_atomic (c : Circuit S) (n : Nat) (name : String) :
    (c.addQubitRegister n name).Atomic c := by
  unfold addQubitRegister
  split_ifs <;> simp

theorem addClassicalRegister_atomic (c : Circuit S) (n : Nat) (name : String) :
    (c.addClassicalRegister n name).Atomic c := by
  unfold addClassicalRegister
  split_ifs <;> simp

/-- A classical register that is not empty is inserted. -/
theorem addClassicalRegister_of_answer {c : Circuit S} {n : Nat} {name : String} {a : Unit}
    (answer : (c.addClassicalRegister n name).answer = .ok a) (positive : n ≠ 0) :
    (c.addClassicalRegister n name).circuit = c.insertClbits n name := by
  unfold addClassicalRegister at answer ⊢
  split_ifs at answer ⊢
  · cases answer
  · rfl
  · cases answer

theorem addAncillaryRegister_atomic (c : Circuit S) (n : Nat) (name : String) :
    (c.addAncillaryRegister n name).Atomic c := by
  unfold addAncillaryRegister
  split_ifs <;> simp

/-! ## Single qubits -/

/-- What is located in a register can be removed from it. -/
theorem remove_of_locate? {regs : Registers} {i offset : Nat} {name : String}
    (located : Registers.locate? regs i = some (name, offset)) :
    ∃ rest, Registers.remove regs name i = .ok rest := by
  have covered : Registers.coverCount regs i ≠ 0 := fun uncovered => by
    simp [Registers.locate?_eq_none_iff.mpr uncovered] at located
  rcases Registers.exists_takeOut covered with ⟨name', offset', rest, located', removed⟩
  obtain ⟨rfl, -⟩ := Prod.mk.inj (Option.some.inj (located.symm.trans located'))
  exact ⟨rest, removed⟩

theorem dropAncilla_unrefused (c : Circuit S) : c.dropAncilla.Unrefused := by
  unfold dropAncilla
  split_ifs <;> simp

theorem dropQubit_unrefused (c : Circuit S) : c.dropQubit.Unrefused := by
  unfold dropQubit
  split_ifs <;> simp

theorem releaseAncilla_atomic (c : Circuit S) (physical : Nat) :
    (c.releaseAncilla physical).Atomic c := by
  unfold releaseAncilla
  cases located : Registers.locate? c.ancregs physical with
  | none => exact atomic_refuse c _
  | some found =>
      rcases remove_of_locate? located with ⟨rest, removed⟩
      simp only [removed]
      exact (dropAncilla_unrefused _).atomic c

theorem releaseQubit_atomic (c : Circuit S) (logical physical : Nat) :
    (c.releaseQubit logical physical).Atomic c := by
  unfold releaseQubit
  cases located : Registers.locate? c.qregs physical with
  | none => exact atomic_refuse c _
  | some found =>
      rcases remove_of_locate? located with ⟨rest, removed⟩
      simp only [removed]
      split_ifs
      · exact (dropAncilla_unrefused _).atomic c
      · exact (dropQubit_unrefused _).atomic c

/-- The registers refuse a removal, if at all, before anything is taken out. -/
theorem removeQubit_atomic (c : Circuit S) (logical : Nat) : (c.removeQubit logical).Atomic c := by
  unfold removeQubit
  cases c.physicalOf? logical with
  | none => exact atomic_refuse c _
  | some physical =>
      dsimp only
      split_ifs
      · exact (releaseAncilla_atomic c physical).andThen fun _ _ => unrefused_done _ _
      · exact (releaseQubit_atomic c logical physical).andThen fun _ _ => unrefused_done _ _

theorem addQubit_atomic (c : Circuit S) (logical physical : Nat) (output : Option Nat) :
    (c.addQubit logical physical output).Atomic c := by
  unfold addQubit
  split_ifs <;> simp

theorem addAncillaryQubit_atomic (c : Circuit S) (physical : Nat) (output : Option Nat) :
    (c.addAncillaryQubit physical output).Atomic c := by
  unfold addAncillaryQubit
  dsimp only
  split_ifs <;> simp

/-! ## Marks -/

theorem moveToAncillae_unrefused (c : Circuit S) (physical : Nat) :
    (c.moveToAncillae physical).Unrefused := by
  unfold moveToAncillae
  cases located : Registers.locate? c.qregs physical with
  | none => exact unrefused_done _ _
  | some found =>
      rcases remove_of_locate? located with ⟨rest, removed⟩
      simp only [removed]
      exact unrefused_done _ _

theorem makeAncilla_unrefused (c : Circuit S) (logical physical : Nat) :
    (c.makeAncilla logical physical).Unrefused := by
  refine (moveToAncillae_unrefused c physical).andThen fun _ _ => ?_
  split_ifs <;> simp

/-- No move of a range is refused, whatever the moves before it did. -/
theorem makeAncillae_unrefused (c : Circuit S) (moves : List (Nat × Nat)) :
    (c.makeAncillae moves).Unrefused := by
  induction moves generalizing c with
  | nil => exact unrefused_done _ _
  | cons move rest ih =>
      exact (makeAncilla_unrefused c move.1 move.2).andThen fun _ _ => ih _

theorem markAncillary_atomic (c : Circuit S) (lo hi : Nat) : (c.markAncillary lo hi).Atomic c := by
  unfold markAncillary
  cases c.rangeError? lo hi with
  | some cause => exact atomic_refuse c _
  | none =>
      cases c.ancillaMoves lo hi with
      | error cause => exact atomic_refuse c _
      | ok moves => exact (makeAncillae_unrefused c moves.reverse).atomic c

theorem markGarbage_atomic (c : Circuit S) (lo hi : Nat) : (c.markGarbage lo hi).Atomic c := by
  unfold markGarbage
  cases c.rangeError? lo hi with
  | some cause => exact atomic_refuse c _
  | none =>
      dsimp only
      split_ifs <;> simp

/-! ## Operations -/

variable [Scalar S]

theorem emission_atomic (c : Circuit S) (e : Emission S) : (e.run c).Atomic c := by
  rcases emission_admits c e with ⟨cause, refused⟩ | ⟨op, pushed, _⟩
  · rw [refused]
    exact atomic_refuse c cause
  · rw [pushed]
    exact atomic_done c _ _

/-- Measurements in range are not refused; those before leave the numbers of qubits and bits. -/
theorem measureEach_unrefused (c : Circuit S) (start : Nat) (qubits : List Nat)
    (inRange : ∀ q ∈ qubits, q < c.numTotalQubits ∧ start + q < c.numClbits) :
    (c.measureEach start qubits).Unrefused := by
  induction qubits generalizing c with
  | nil => exact unrefused_done _ _
  | cons q rest ih =>
      have first := inRange q List.mem_cons_self
      rw [measureEach, measure_of_lt c first.1 ((wrapIndex_le_self _).trans_lt first.2)]
      exact (unrefused_done _ _).andThen fun _ _ =>
        ih _ fun q member => inRange q (List.mem_cons_of_mem _ member)

/-- Once there is a bit for each qubit, the barrier and the measurements are not refused. -/
theorem barrier_measureEach_unrefused (c : Circuit S) {start n : Nat} (qubits : n ≤ c.numQubits)
    (bits : start + n ≤ c.numClbits) :
    (c.barrier.andThen fun c _ => c.measureEach start (List.range n)).Unrefused := by
  rw [barrier_eq_push]
  refine (unrefused_done _ _).andThen fun _ _ => measureEach_unrefused _ _ _ fun q member => ?_
  have below : q < n := List.mem_range.mp member
  constructor
  · change q < c.numQubits + c.numAncillae
    omega
  · change start + q < c.numClbits
    omega

/-- The bits are there, or the request is refused, before the barrier is appended. -/
theorem measureAll_atomic (c : Circuit S) (addBits : Bool) : (c.measureAll addBits).Atomic c := by
  unfold measureAll
  dsimp only
  by_cases none : c.numQubits = 0
  · rw [if_pos none]
    exact atomic_done c _ _
  · rw [if_neg none]
    cases addBits with
    | true =>
        refine (addClassicalRegister_atomic c _ _).andThen fun _ answer => ?_
        rw [addClassicalRegister_of_answer answer none]
        have start : (c.insertClbits c.numQubits measRegister).cregs.find? measRegister =
            some ⟨c.numClbits, c.numQubits⟩ := by
          rw [insertClbits, SortedMap.find?_insert, if_pos rfl]
        simp only [if_true, start]
        exact barrier_measureEach_unrefused _ (Nat.le_refl _) (Nat.le_refl _)
    | false =>
        simp only [Bool.false_eq_true, if_false]
        by_cases short : c.numClbits < c.numQubits
        · rw [if_pos short]
          exact (atomic_refuse c _).andThen fun _ answer => nomatch answer
        · rw [if_neg short]
          refine (atomic_done c c ()).andThen fun _ _ => ?_
          exact barrier_measureEach_unrefused c (Nat.le_refl _) (by omega)

end Circuit

/-! ## Requests -/

/-- A request to a circuit, with its arguments. -/
inductive Request (S : Type) where
  /-- `addQubitRegister`. -/
  | addQubitRegister (n : Nat) (name : String)
  /-- `addClassicalRegister`. -/
  | addClassicalRegister (n : Nat) (name : String)
  /-- `addAncillaryRegister`. -/
  | addAncillaryRegister (n : Nat) (name : String)
  /-- `removeQubit`. -/
  | removeQubit (logical : Nat)
  /-- `addQubit`. -/
  | addQubit (logical physical : Nat) (output : Option Nat)
  /-- `addAncillaryQubit`. -/
  | addAncillaryQubit (physical : Nat) (output : Option Nat)
  /-- `markAncillary`. -/
  | markAncillary (lo hi : Nat)
  /-- `markGarbage`. -/
  | markGarbage (lo hi : Nat)
  /-- `measureAll`. -/
  | measureAll (addBits : Bool)
  /-- A gate, a conditioned gate, a measurement, a reset or a barrier. -/
  | emission (e : Emission S)

namespace Request

variable [Scalar S]

/-- The outcome of a request, without the answer of a removal. -/
def run (c : Circuit S) : Request S → Outcome S Unit
  | .addQubitRegister n name => c.addQubitRegister n name
  | .addClassicalRegister n name => c.addClassicalRegister n name
  | .addAncillaryRegister n name => c.addAncillaryRegister n name
  | .removeQubit logical => (c.removeQubit logical).andThen fun c _ => c.done ()
  | .addQubit logical physical output => c.addQubit logical physical output
  | .addAncillaryQubit physical output => c.addAncillaryQubit physical output
  | .markAncillary lo hi => c.markAncillary lo hi
  | .markGarbage lo hi => c.markGarbage lo hi
  | .measureAll addBits => c.measureAll addBits
  | .emission e => e.run c

open Circuit

/-- A request that is refused leaves every part of the circuit as it was. -/
theorem circuit_of_refused (r : Request S) (c : Circuit S) {cause : CircuitError}
    (refused : (r.run c).answer = .error (.refused cause)) : (r.run c).circuit = c := by
  have atomic : (r.run c).Atomic c := by
    cases r with
    | addQubitRegister n name => exact addQubitRegister_atomic c n name
    | addClassicalRegister n name => exact addClassicalRegister_atomic c n name
    | addAncillaryRegister n name => exact addAncillaryRegister_atomic c n name
    | removeQubit logical =>
        exact (removeQubit_atomic c logical).andThen fun _ _ => Outcome.unrefused_done _ _
    | addQubit logical physical output => exact addQubit_atomic c logical physical output
    | addAncillaryQubit physical output => exact addAncillaryQubit_atomic c physical output
    | markAncillary lo hi => exact markAncillary_atomic c lo hi
    | markGarbage lo hi => exact markGarbage_atomic c lo hi
    | measureAll addBits => exact measureAll_atomic c addBits
    | emission e => exact emission_atomic c e
  exact atomic cause refused

/-- Of three qubits the second has been removed.  Marking the first two finds the first one, but no
physical qubit for the other. -/
theorem circuit_of_refused_gap :
    let c : Circuit Float :=
      (((blank Config.default).insertQubits 3 "q").removeQubit 1).circuit
    c.initialLayout.entries = [(0, 0), (2, 2)] ∧
      (run c (.markAncillary 0 1)).answer = .error (.refused (.logicalQubitNotFound 1)) ∧
      (run c (.markAncillary 0 1)).circuit = c := by
  intro c
  have refused : (run c (.markAncillary 0 1)).answer =
      .error (.refused (.logicalQubitNotFound 1)) := by decide +kernel
  exact ⟨by decide +kernel, refused, circuit_of_refused _ c refused⟩

end Request

end QuantumCircuit
