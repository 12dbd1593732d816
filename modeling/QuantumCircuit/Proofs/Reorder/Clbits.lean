import QuantumCircuit.Proofs.Reorder.Sweep

/-!
# Classical bits and the canonical order

Measurements and conditions on classical bits depend on each other without sharing a qubit.  The
canonical order knows about qubits only.  Two operations keep their order if a chain of operations
leads from one to the other, each of them linked to the next one by a qubit.  Otherwise swaps of
neighbours that are not linked bring them into the opposite order, and as these swaps do not change
the canonical order, it cannot keep both.
-/

namespace QuantumCircuit

variable {S : Type}

/-! ## Conflicts -/

namespace Operation

mutual

/-- Whether an operation measures into a classical bit, also under conditions and in blocks. -/
def writesClbit (bit : Nat) : Operation S → Bool
  | .standard _ => false
  | .symbolic _ => false
  | .nonUnitary e => e.kind = .measure && e.clbits.contains bit
  | .conditioned op _ => op.writesClbit bit
  | .compound ops => anyWritesClbit bit ops
termination_by structural op => op

/-- Whether some operation of a list measures into a classical bit. -/
def anyWritesClbit (bit : Nat) : List (Operation S) → Bool
  | [] => false
  | op :: ops => op.writesClbit bit || anyWritesClbit bit ops
termination_by structural ops => ops

end

mutual

/-- Whether an operation has a condition on a classical bit, also inside of others and in blocks. -/
def readsClbit (bit : Nat) : Operation S → Bool
  | .standard _ => false
  | .symbolic _ => false
  | .nonUnitary _ => false
  | .conditioned op c =>
      c.register.start ≤ bit && bit < c.register.start + c.register.size || op.readsClbit bit
  | .compound ops => anyReadsClbit bit ops
termination_by structural op => op

/-- Whether some operation of a list has a condition on a classical bit. -/
def anyReadsClbit (bit : Nat) : List (Operation S) → Bool
  | [] => false
  | op :: ops => op.readsClbit bit || anyReadsClbit bit ops
termination_by structural ops => ops

end

/-- Whether an operation writes or reads a classical bit. -/
def usesClbit (bit : Nat) (op : Operation S) : Bool :=
  op.writesClbit bit || op.readsClbit bit

/-- Whether two operations share a classical bit that at least one of them writes. -/
def Conflicts (a b : Operation S) : Prop :=
  ∃ bit, a.usesClbit bit = true ∧ b.usesClbit bit = true ∧
    (a.writesClbit bit = true ∨ b.writesClbit bit = true)

end Operation

/-! ## Chains of linked operations -/

/-- Whether the operation at a position comes before a linked one at another. -/
def LinkedAt (ops : List (Operation S)) (i j : Nat) : Prop :=
  i < j ∧ ∃ a b, ops[i]? = some a ∧ ops[j]? = some b ∧ a.Linked b

/-- Whether a chain of operations in program order leads from one position to another, each of them
linked to the next one. -/
def Chained (ops : List (Operation S)) : Nat → Nat → Prop :=
  Relation.TransGen (LinkedAt ops)

namespace Rearranges

variable {ops ops' : List (Operation S)} {σ : Equiv.Perm Nat} {i j : Nat}

theorem linkedAt (rearranges : Rearranges σ ops ops') (linked : LinkedAt ops i j) :
    LinkedAt ops' (σ i) (σ j) := by
  rcases linked with ⟨before, a, b, foundA, foundB, linked⟩
  refine ⟨rearranges.order before foundA foundB linked, a, b, ?_, ?_, linked⟩
  · rw [rearranges.item, foundA]
  · rw [rearranges.item, foundB]

/-- A rearrangement keeps chains. -/
theorem chained (rearranges : Rearranges σ ops ops') (chain : Chained ops i j) :
    Chained ops' (σ i) (σ j) :=
  Relation.TransGen.lift σ (fun _ _ linked => rearranges.linkedAt linked) _ _ chain

/-- A rearrangement keeps the order along a chain. -/
theorem lt_of_chained (rearranges : Rearranges σ ops ops') (chain : Chained ops i j) :
    σ i < σ j := by
  induction chain with
  | single linked => exact (rearranges.linkedAt linked).1
  | tail _ linked ih => exact Nat.lt_trans ih (rearranges.linkedAt linked).1

/-- What has been rearranged can be rearranged back. -/
theorem symm (rearranges : Rearranges σ ops ops') : Rearranges σ.symm ops' ops := by
  have item : ∀ i, ops[σ.symm i]? = ops'[i]? := by
    intro i
    rw [← rearranges.item, Equiv.apply_symm_apply]
  refine ⟨item, fun {i j a b} before foundA foundB linked => ?_⟩
  have linked' : b.Linked a := by
    by_contra free
    exact Timetable.not_linked_symm free linked
  rcases Nat.lt_trichotomy (σ.symm i) (σ.symm j) with less | equal | greater
  · exact less
  · exact absurd (σ.symm.injective equal) (Nat.ne_of_lt before)
  · have reversed := rearranges.order greater ((item j).trans foundB) ((item i).trans foundA)
      linked'
    rw [Equiv.apply_symm_apply, Equiv.apply_symm_apply] at reversed
    exact absurd before (Nat.lt_asymm reversed)

/-- A rearrangement makes no chains either. -/
theorem chained_iff (rearranges : Rearranges σ ops ops') :
    Chained ops' (σ i) (σ j) ↔ Chained ops i j := by
  constructor
  · intro chain
    have back := rearranges.symm.chained chain
    rw [Equiv.symm_apply_apply, Equiv.symm_apply_apply] at back
    exact back
  · exact rearranges.chained

theorem lt_length (rearranges : Rearranges σ ops ops') (inside : i < ops.length) :
    σ i < ops'.length := by
  have found := rearranges.item i
  rw [List.getElem?_eq_getElem inside] at found
  exact (List.getElem?_eq_some_iff.mp found).1

end Rearranges

/-! ## Operations without a chain -/

/-- What fixes all positions outside of an interval maps the interval to itself. -/
theorem between_of_fixed {σ : Equiv.Perm Nat} {i j k : Nat}
    (fixed : ∀ m, m < i ∨ j < m → σ m = m) (low : i ≤ k) (high : k ≤ j) :
    i ≤ σ k ∧ σ k ≤ j := by
  by_contra outside
  have same : σ k = k := σ.injective (fixed (σ k) (by omega))
  omega

/-- Neighbours that are not linked can be swapped wherever they are. -/
theorem exists_swapAt {ops : List (Operation S)} {i : Nat} (inside : i + 1 < ops.length)
    (free : ¬ LinkedAt ops i (i + 1)) : ∃ ops' σ, Swap ops ops' ∧ Rearranges σ ops ops' ∧
      σ i = i + 1 ∧ σ (i + 1) = i ∧ ∀ k, k ≠ i → k ≠ i + 1 → σ k = k := by
  induction ops generalizing i with
  | nil => contradiction
  | cons op ops ih =>
      cases i with
      | zero =>
          cases ops with
          | nil => contradiction
          | cons other ops =>
              have apart : ¬ op.Linked other := fun linked =>
                free ⟨Nat.zero_lt_one, op, other, rfl, rfl, linked⟩
              exact ⟨_, _, .head apart ops, .head apart ops, Equiv.swap_apply_left 0 1,
                Equiv.swap_apply_right 0 1, fun k => Equiv.swap_apply_of_ne_of_ne⟩
      | succ i =>
          have freeTail : ¬ LinkedAt ops i (i + 1) := by
            rintro ⟨_, a, b, foundA, foundB, linked⟩
            exact free ⟨Nat.lt_succ_self _, a, b, foundA, foundB, linked⟩
          rcases ih (Nat.lt_of_succ_lt_succ inside) freeTail with
            ⟨ops', σ, swap, rearranges, up, down, fixed⟩
          refine ⟨op :: ops', succPerm σ, .tail op swap, rearranges.tail op,
            congrArg Nat.succ up, congrArg Nat.succ down, fun k notFirst notSecond => ?_⟩
          cases k with
          | zero => rfl
          | succ k =>
              exact congrArg Nat.succ (fixed k (fun equal => notFirst (congrArg Nat.succ equal))
                fun equal => notSecond (congrArg Nat.succ equal))

/-- Two operations without a chain from the first to the second can be brought into the opposite
order by swaps of neighbours that are not linked.  Only positions from the first to the second
change. -/
theorem exists_crossing {ops : List (Operation S)} {i j : Nat} (before : i < j)
    (inside : j < ops.length) (apart : ¬ Chained ops i j) : ∃ ops' σ,
      Swaps ops ops' ∧ Rearranges σ ops ops' ∧ σ j < σ i ∧ ∀ k, k < i ∨ j < k → σ k = k := by
  induction distance : j - i using Nat.strong_induction_on generalizing ops i j with
  | _ d ih =>
      subst distance
      by_cases linked : LinkedAt ops i (i + 1)
      · -- The neighbour moves behind the second operation first, and the first one follows it.
        have further : i + 1 ≠ j := by
          rintro rfl
          exact apart (.single linked)
        have apartNext : ¬ Chained ops (i + 1) j := fun chain => apart (.head linked chain)
        obtain ⟨mid, τ, swaps, rearranges, passed, fixed⟩ :=
          ih (j - (i + 1)) (by omega) (by omega) inside apartNext rfl
        have stays : τ i = i := fixed i (.inl (Nat.lt_succ_self i))
        have behind : i < τ j := (between_of_fixed fixed before (Nat.le_refl j)).1
        have nearer : τ j < j :=
          Nat.lt_of_lt_of_le passed (between_of_fixed fixed (Nat.le_refl (i + 1)) before).2
        have apartMid : ¬ Chained mid (τ i) (τ j) := mt rearranges.chained_iff.mp apart
        rw [stays] at apartMid
        obtain ⟨last, ρ, swaps', rearranges', crossed, fixed'⟩ :=
          ih (τ j - i) (by omega) behind (rearranges.lt_length inside) apartMid rfl
        refine ⟨last, τ.trans ρ, swaps.trans swaps', rearranges.trans rearranges', ?_,
          fun k outside => ?_⟩
        · rw [Equiv.trans_apply, Equiv.trans_apply, stays]
          exact crossed
        · rw [Equiv.trans_apply, fixed k (by omega), fixed' k (by omega)]
      · obtain ⟨mid, τ, swap, rearranges, up, down, fixed⟩ :=
          exists_swapAt (Nat.lt_of_le_of_lt before inside) linked
        by_cases next : i + 1 = j
        · subst next
          refine ⟨mid, τ, .single swap, rearranges, ?_,
            fun k outside => fixed k (by omega) (by omega)⟩
          rw [up, down]
          exact Nat.lt_succ_self i
        · have stays : τ j = j := fixed j (by omega) (by omega)
          have apartMid : ¬ Chained mid (τ i) (τ j) := mt rearranges.chained_iff.mp apart
          have insideMid : τ j < mid.length := rearranges.lt_length inside
          rw [up, stays] at apartMid
          rw [stays] at insideMid
          obtain ⟨last, ρ, swaps', rearranges', crossed, fixed'⟩ :=
            ih (j - (i + 1)) (by omega) (by omega) insideMid apartMid rfl
          refine ⟨last, τ.trans ρ, .head swap swaps', rearranges.trans rearranges', ?_,
            fun k outside => ?_⟩
          · rw [Equiv.trans_apply, Equiv.trans_apply, up, stays]
            exact crossed
          · rw [Equiv.trans_apply, fixed k (by omega) (by omega), fixed' k (by omega)]

/-! ## Classical bits -/

namespace Circuit

/-- Whether the canonical order keeps operations that share a classical bit in their order if one of
them writes it. -/
def KeepsConflicts (c : Circuit S) : Prop :=
  ∀ σ, Rearranges σ c.ops c.reorder.ops → ∀ i j a b, i < j → c.ops[i]? = some a →
    c.ops[j]? = some b → a.Conflicts b → σ i < σ j

/-- The canonical order keeps operations that share a classical bit in their order if a chain of
operations leads from the first to the second, each with one of its used qubits in common with the
next.  A block under a condition has no used qubits, so a qubit that is touched in there does not
count.  Without a chain it depends on the used qubits alone which of them comes first: swaps of
neighbours without a common one lead to a program in which they stand in the opposite order, and its
canonical order is the same. -/
theorem reorder_keeps_chained (c : Circuit S) :
    (∃ σ, Rearranges σ c.ops c.reorder.ops) ∧
    ∀ σ, Rearranges σ c.ops c.reorder.ops → ∀ i j a b, i < j → c.ops[i]? = some a →
      c.ops[j]? = some b → a.Conflicts b →
        (Chained c.ops i j → σ i < σ j) ∧
        (¬ Chained c.ops i j → ∃ ops τ ρ, Swaps c.ops ops ∧ Rearranges τ c.ops ops ∧
          τ j < τ i ∧ ({ c with ops } : Circuit S).reorder = c.reorder ∧
          Rearranges ρ ops c.reorder.ops ∧ ρ (τ i) = σ i ∧ ρ (τ j) = σ j) := by
  refine ⟨exists_rearranges (swaps_canonicalOrder c.ops),
    fun σ rearranges i j a b before _ foundB _ => ⟨rearranges.lt_of_chained, fun apart => ?_⟩⟩
  have inside : j < c.ops.length := (List.getElem?_eq_some_iff.mp foundB).1
  obtain ⟨ops, τ, swaps, moved, crossed, _⟩ := exists_crossing before inside apart
  refine ⟨ops, τ, τ.symm.trans σ, swaps, moved, crossed, ?_, moved.symm.trans rearranges, ?_, ?_⟩
  · rw [reorder, reorder, canonicalOrder_of_swaps swaps]
  · rw [Equiv.trans_apply, Equiv.symm_apply_apply]
  · rw [Equiv.trans_apply, Equiv.symm_apply_apply]

/-- A measurement and a gate under a condition on its result, on another qubit, with a gate on both
qubits between them. -/
theorem reorder_keeps_chained_gate :
    let measured : Operation Float := .nonUnitary (.ofMeasure [1] [0])
    let between : Operation Float := .standard ⟨.x, .ofList [⟨1, .positive⟩], [0], []⟩
    let gate : Operation Float :=
      .conditioned (.standard ⟨.x, .empty, [0], []⟩) ⟨⟨0, 1⟩, 1, .eq⟩
    let c : Circuit Float := { ((blank Config.default).insertQubits 2 "q").insertClbits 1 "c" with
      ops := [measured, between, gate] }
    measured.Conflicts gate ∧ ¬ measured.Linked gate ∧ Chained c.ops 0 2 ∧
      ∀ σ, Rearranges σ c.ops c.reorder.ops → σ 0 < σ 2 := by
  intro measured between gate c
  have conflict : measured.Conflicts gate := ⟨0, rfl, rfl, .inl rfl⟩
  have apart : ¬ measured.Linked gate := by
    rintro (⟨q, mem, mem'⟩ | ⟨none, _⟩)
    · obtain rfl := List.mem_singleton.mp mem
      exact absurd (List.mem_singleton.mp mem') (by decide)
    · contradiction
  have first : LinkedAt c.ops 0 1 :=
    ⟨by decide, measured, between, rfl, rfl, .inl ⟨1, by decide, by decide⟩⟩
  have second : LinkedAt c.ops 1 2 :=
    ⟨by decide, between, gate, rfl, rfl, .inl ⟨0, by decide, by decide⟩⟩
  have chain : Chained c.ops 0 2 := .tail (.single first) second
  refine ⟨conflict, apart, chain, fun σ rearranges => ?_⟩
  exact ((reorder_keeps_chained c).2 σ rearranges 0 2 measured gate (by decide) rfl rfl
    conflict).1 chain

/-- Two measurements into one bit, and between them a gate under a condition on it, all on different
qubits, come in the opposite order. -/
theorem reorder_reverses_conflicts :
    let first : Operation Float := .nonUnitary (.ofMeasure [2] [0])
    let gate : Operation Float :=
      .conditioned (.standard ⟨.x, .empty, [1], []⟩) ⟨⟨0, 1⟩, 1, .eq⟩
    let second : Operation Float := .nonUnitary (.ofMeasure [0] [0])
    let c : Circuit Float := { ((blank Config.default).insertQubits 3 "q").insertClbits 1 "c" with
      ops := [first, gate, second] }
    c.reorder.ops = [second, gate, first] ∧ first.Conflicts gate ∧ gate.Conflicts second ∧
      first.Conflicts second ∧ ¬ c.KeepsConflicts := by
  intro first gate second c
  have reversed : c.reorder.ops = [second, gate, first] := by rfl
  have firstGate : first.Conflicts gate := ⟨0, rfl, rfl, .inl rfl⟩
  have gateSecond : gate.Conflicts second := ⟨0, rfl, rfl, .inr rfl⟩
  have firstSecond : first.Conflicts second := ⟨0, rfl, rfl, .inl rfl⟩
  refine ⟨reversed, firstGate, gateSecond, firstSecond, fun keeps => ?_⟩
  have reached : Swaps c.ops c.reorder.ops := swaps_canonicalOrder c.ops
  obtain ⟨σ, rearranges⟩ := exists_rearranges reached
  have less := keeps σ rearranges 0 1 first gate (by decide) rfl rfl firstGate
  have less' := keeps σ rearranges 1 2 gate second (by decide) rfl rfl gateSecond
  have last := rearranges.item 2
  rw [reversed] at last
  have below : σ 2 < 3 := (List.getElem?_eq_some_iff.mp last).1
  -- Three positions in ascending order stay where they are, but the first operation has moved.
  have stays : σ 0 = 0 := by omega
  have found := rearranges.item 0
  rw [reversed, stays] at found
  exact absurd (Operation.nonUnitary.inj (Option.some.inj found)) (by decide)

end Circuit

end QuantumCircuit
