import Mathlib.Algebra.BigOperators.Fin
import QuantumCircuit.Proofs.Tensor.Record

/-!
# Sums over legs

A network is contracted by summing over the bits of its legs.  The bits of one piece of the wire of
each qubit make a state, and a sum over all states comes down to one over the bits of those qubits
on which more than one state contributes.
-/

namespace QuantumCircuit

variable {R : Type}

/-! ## Sums over legs -/

section Sums

variable [AddCommMonoid R]

/-- The sum over the bits of some legs, with the bits of all others given. -/
def sumOver (f : (String → Bool) → R) : List String → (String → Bool) → R
  | [], bits => f bits
  | leg :: legs, bits =>
      sumOver f legs (Function.update bits leg false) +
        sumOver f legs (Function.update bits leg true)

theorem sumOver_append (f : (String → Bool) → R) (first second : List String)
    (bits : String → Bool) :
    sumOver f (first ++ second) bits = sumOver (sumOver f second) first bits := by
  induction first generalizing bits with
  | nil => rfl
  | cons leg legs ih => rw [List.cons_append, sumOver, sumOver, ih, ih]

/-- Only bits that agree with the given ones on all other legs matter. -/
theorem sumOver_congr {f f' : (String → Bool) → R} {legs : List String} {bits : String → Bool}
    (same : ∀ bits', (∀ leg, leg ∉ legs → bits' leg = bits leg) → f bits' = f' bits') :
    sumOver f legs bits = sumOver f' legs bits := by
  induction legs generalizing bits with
  | nil => exact same bits fun _ _ => rfl
  | cons head rest ih =>
      have branch : ∀ bit, sumOver f rest (Function.update bits head bit) =
          sumOver f' rest (Function.update bits head bit) := by
        intro bit
        refine ih fun bits' agree => same bits' fun leg other => ?_
        rcases not_or.mp (mt List.mem_cons.mpr other) with ⟨notHead, notRest⟩
        rw [agree leg notRest, Function.update_of_ne notHead]
      rw [sumOver, sumOver, branch, branch]

end Sums

theorem sumOver_mul_left [Semiring R] (a : R) (f : (String → Bool) → R) (legs : List String)
    (bits : String → Bool) :
    sumOver (fun bits => a * f bits) legs bits = a * sumOver f legs bits := by
  induction legs generalizing bits with
  | nil => rfl
  | cons leg legs ih => rw [sumOver, sumOver, ih, ih, mul_add]

/-! ## States on the wires -/

/-- The state in which each qubit has the bit of a piece of its wire. -/
def stateAt (n : Nat) (piece : Nat → Nat) (bits : String → Bool) : Fin (2 ^ n) :=
  ⟨Nat.ofBits fun q : Fin n => bits (Tape.legName q (piece q)), Nat.ofBits_lt_two_pow _⟩

theorem testBit_stateAt {n : Nat} (piece : Nat → Nat) (bits : String → Bool) {q : Nat}
    (below : q < n) : (stateAt n piece bits).val.testBit q = bits (Tape.legName q (piece q)) :=
  Nat.testBit_ofBits_lt _ q below

/-- States with the same bits are equal. -/
theorem state_ext {n : Nat} {i j : Fin (2 ^ n)}
    (same : ∀ q < n, i.val.testBit q = j.val.testBit q) : i = j := by
  apply Fin.ext
  apply Nat.eq_of_testBit_eq
  intro q
  by_cases below : q < n
  · exact same q below
  · have beyond : ∀ i : Fin (2 ^ n), i.val < 2 ^ q := fun i =>
      Nat.lt_of_lt_of_le i.isLt (Nat.pow_le_pow_right Nat.two_pos (Nat.le_of_not_lt below))
    rw [Nat.testBit_lt_two_pow (beyond i), Nat.testBit_lt_two_pow (beyond j)]

theorem stateAt_congr {n : Nat} {piece : Nat → Nat} {bits bits' : String → Bool}
    (agree : ∀ q, bits (Tape.legName q (piece q)) = bits' (Tape.legName q (piece q))) :
    stateAt n piece bits = stateAt n piece bits' :=
  state_ext fun q inside => by
    rw [testBit_stateAt _ _ inside, testBit_stateAt _ _ inside, agree]

/-- A sum over all states to which only those contribute that have the given bits on all but some
qubits is the sum over the bits of these qubits. -/
theorem sum_eq_sumOver [AddCommMonoid R] {n : Nat} {piece : Nat → Nat} {qubits : List Nat}
    (distinct : qubits.Nodup) (below : ∀ q ∈ qubits, q < n) (f : Fin (2 ^ n) → R)
    {bits : String → Bool}
    (vanishes : ∀ i q, q < n → q ∉ qubits →
      i.val.testBit q ≠ bits (Tape.legName q (piece q)) → f i = 0) :
    ∑ i, f i = sumOver (fun bits => f (stateAt n piece bits))
      (qubits.map fun q => Tape.legName q (piece q)) bits := by
  induction qubits generalizing f bits with
  | nil =>
      apply Finset.sum_eq_single_of_mem _ (Finset.mem_univ _)
      intro i _ other
      by_contra contributes
      apply other
      apply state_ext
      intro q inside
      rw [testBit_stateAt piece bits inside]
      by_contra differ
      exact contributes (vanishes i q inside List.not_mem_nil differ)
  | cons head rest ih =>
      rcases List.nodup_cons.mp distinct with ⟨notMem, distinctRest⟩
      have inside : head < n := below head List.mem_cons_self
      -- The states with either bit on the first qubit are summed over the bits of the others.
      have branch : ∀ bit, (∑ i, if i.val.testBit head = bit then f i else 0) =
          sumOver (fun bits => f (stateAt n piece bits))
            (rest.map fun q => Tape.legName q (piece q))
            (Function.update bits (Tape.legName head (piece head)) bit) := by
        intro bit
        rw [ih distinctRest (fun q mem => below q (List.mem_cons_of_mem _ mem))]
        · apply sumOver_congr
          intro bits' agree
          have notLeg : Tape.legName head (piece head) ∉
              rest.map fun q => Tape.legName q (piece q) := by
            intro isLeg
            rcases List.mem_map.mp isLeg with ⟨q, mem, same⟩
            rw [(Tape.legName_injective same).1] at mem
            exact notMem mem
          have kept : (stateAt n piece bits').val.testBit head = bit := by
            rw [testBit_stateAt piece bits' inside, agree _ notLeg, Function.update_self]
          rw [if_pos kept]
        · intro i q qInside other differ
          by_cases isHead : q = head
          · subst isHead
            rw [Function.update_self] at differ
            exact if_neg differ
          · have otherLeg : Tape.legName q (piece q) ≠ Tape.legName head (piece head) :=
              fun same => isHead (Tape.legName_injective same).1
            rw [Function.update_of_ne otherLeg] at differ
            rw [vanishes i q qInside (fun mem => (List.mem_cons.mp mem).elim isHead other) differ,
              ite_self]
      rw [List.map_cons, sumOver, ← branch, ← branch, ← Finset.sum_add_distrib]
      apply Finset.sum_congr rfl
      intro i _
      cases i.val.testBit head <;> simp

end QuantumCircuit
