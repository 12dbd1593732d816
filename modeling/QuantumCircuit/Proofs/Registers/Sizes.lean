import QuantumCircuit.Proofs.Registers.Cover

/-!
# Counts beside registers

A count that is raised and lowered along with registers follows their sizes.  Joining ranges can make
the sum of the sizes less than the count, but only by multiples of the number of indices.  So as long
as the count is an index, it is the total size.
-/

namespace QuantumCircuit.Registers

open SortedMap Register

variable {regs next rest : Registers} {name base : String} {i start m n : Nat}

/-! ## Sums of sizes -/

/-- Joining two halves does not make the sum of the sizes greater. -/
theorem sumOf_size_joinHalves?_le (joined : joinHalves? regs base = some next) :
    next.sumOf Register.size ≤ regs.sumOf Register.size := by
  obtain ⟨low, high, -, -, -, same⟩ := exists_sumOf_joinHalves? Register.size joined
  have size : (low.join high).size ≤ low.size + high.size := wrapIndex_le_self _
  omega

theorem sumOf_size_consolidate_le (regs : Registers) :
    (consolidate regs).sumOf Register.size ≤ regs.sumOf Register.size :=
  consolidate_keeps (fun next => next.sumOf Register.size ≤ regs.sumOf Register.size)
    (fun joined before => (sumOf_size_joinHalves?_le joined).trans before) (Nat.le_refl _)

theorem size_extend?_le {r grown : Register} (extended : extend? r i = some grown) :
    grown.size ≤ r.size + 1 := by
  rcases extend?_cases extended with ⟨-, rfl⟩ | ⟨-, rfl⟩
  · exact (wrapIndex_le_self _).trans (Nat.le_of_eq (Nat.add_comm _ _))
  · exact wrapIndex_le_self _

theorem sumOf_size_add_le (regs : Registers) (i : Nat) (name : String) :
    (add regs i name).sumOf Register.size ≤ regs.sumOf Register.size + 1 := by
  rcases add_cases regs i name with ⟨rfl, added⟩ | ⟨key, old, grown, found, extended, added⟩ |
    ⟨-, added⟩
  · rw [added, sumOf_insert _ _ (contains_empty name)]
  · have size := size_extend?_le extended
    have joined := sumOf_size_consolidate_le (regs.insert key grown)
    have split := sumOf_erase Register.size found
    rw [sumOf_insert_erase] at joined
    rw [added]
    omega
  · rw [added, sumOf_insert _ _ (contains_freshName regs _)]

theorem sumOf_size_remove_lt (removed : remove regs name i = .ok rest) :
    rest.sumOf Register.size < regs.sumOf Register.size := by
  obtain ⟨r, found, inside, cases⟩ := remove_cases removed
  have bound : r.stop ≤ r.start + r.size := wrapIndex_le_self _
  have split := sumOf_erase Register.size found
  have nonempty := lt_of_contains inside
  obtain ⟨low, high⟩ := contains_iff.mp inside
  rcases cases with ⟨-, rfl⟩ | ⟨-, -, rfl⟩ | ⟨-, -, rfl⟩ | ⟨-, -, rfl⟩
  · omega
  · rw [sumOf_insert_erase]
    dsimp only
    omega
  · rw [sumOf_insert_erase]
    dsimp only
    omega
  · rw [sumOf_insert _ _ (contains_freshName _ _), sumOf_insert _ _ (contains_freshName _ _)]
    dsimp only
    omega

theorem sumOf_size_growRegister_le (regs : Registers) (name : String) (start n : Nat) :
    (Circuit.growRegister regs name start n).sumOf Register.size ≤
      regs.sumOf Register.size + n := by
  unfold Circuit.growRegister
  split
  · next r found =>
      have size : wrapIndex (r.size + n) ≤ r.size + n := wrapIndex_le_self _
      have split := sumOf_erase Register.size found
      rw [sumOf_insert_erase]
      dsimp only
      omega
  · next missing => rw [sumOf_insert _ _ (contains_eq_false_iff.mpr missing)]

theorem sumOf_size_closeRegisters_le (regs : Registers) (p : Nat) :
    (Circuit.closeRegisters p regs).sumOf Register.size ≤ regs.sumOf Register.size := by
  refine (sumOf_size_consolidate_le _).trans (Nat.le_of_eq ?_)
  rw [sumOf_mapValues]
  apply sumOf_congr
  intro r _
  split <;> rfl

/-! ## Counts -/

/-- Whether a count follows the sizes of registers. -/
structure CountedBy (regs : Registers) (n : Nat) : Prop where
  /-- The sum of the sizes is at most the count. -/
  le : regs.sumOf Register.size ≤ n
  /-- As indices they are the same. -/
  wrap : totalSize regs = wrapIndex n

namespace CountedBy

theorem totalSize_eq (counted : regs.CountedBy n) (small : n ≤ maxIndex) : totalSize regs = n :=
  counted.wrap.trans (wrapIndex_of_le small)

theorem empty : CountedBy .empty 0 :=
  ⟨Nat.le_refl _, rfl⟩

/-- The only register. -/
theorem single (name : String) (r : Register) :
    CountedBy (SortedMap.empty.insert name r) r.size := by
  have size : (SortedMap.empty.insert name r).sumOf Register.size = r.size :=
    (sumOf_insert _ _ (contains_empty name)).trans (Nat.zero_add _)
  refine ⟨size.le, ?_⟩
  rw [totalSize_eq_wrapIndex, size]

theorem add (counted : regs.CountedBy n) (i : Nat) (name : String) :
    CountedBy (add regs i name) (n + 1) where
  le := (sumOf_size_add_le regs i name).trans (Nat.succ_le_succ counted.le)
  wrap := by
    rw [totalSize_add, counted.wrap]
    exact Nat.ModEq.add_right 1 (Nat.mod_modEq n _)

/-- What gives up an index had been counted. -/
theorem remove (counted : regs.CountedBy n) (removed : remove regs name i = .ok rest) :
    0 < n ∧ rest.CountedBy (n - 1) := by
  have lt := Nat.lt_of_lt_of_le (sumOf_size_remove_lt removed) counted.le
  refine ⟨by omega, by omega, ?_⟩
  have same := (totalSize_remove removed).symm.trans counted.wrap
  have pred : totalSize rest + 1 ≡ n - 1 + 1 [MOD maxIndex + 1] := by
    rw [Nat.sub_add_cancel (by omega)]
    exact same
  rw [← wrapIndex_totalSize]
  exact Nat.ModEq.add_right_cancel' 1 pred

theorem growRegister (counted : regs.CountedBy m) (n : Nat)
    (unblocked : Circuit.blocked regs name start = false) :
    CountedBy (Circuit.growRegister regs name start n) (m + n) where
  le := (sumOf_size_growRegister_le regs name start n).trans (Nat.add_le_add_right counted.le n)
  wrap := by
    rw [totalSize_growRegister n unblocked, counted.wrap]
    exact Nat.ModEq.add_right n (Nat.mod_modEq m _)

theorem closeRegisters (counted : regs.CountedBy n) (p : Nat) :
    CountedBy (Circuit.closeRegisters p regs) n where
  le := (sumOf_size_closeRegisters_le regs p).trans counted.le
  wrap := (Circuit.totalSize_closeRegisters regs p).trans counted.wrap

end CountedBy

end QuantumCircuit.Registers
