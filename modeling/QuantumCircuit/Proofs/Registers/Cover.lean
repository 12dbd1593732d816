import Mathlib.Algebra.BigOperators.Group.Finset.Piecewise
import Mathlib.Algebra.BigOperators.Ring.Finset
import Mathlib.Order.Interval.Finset.Nat
import QuantumCircuit.Proofs.Registers.Weight

/-!
# What registers cover

`coverCount` counts the registers that cover an index.  Registers are disjoint if no index is
covered twice, and they tile a set of indices if these are covered once and all others not at all.
Together with the total size, this count is the view through which a circuit sees the operations on
its registers.
-/

namespace QuantumCircuit

namespace Registers

open SortedMap Register

/-- The number of registers that cover an index. -/
def coverCount (regs : Registers) (i : Nat) : Nat :=
  regs.sumOf fun r => (r.contains i).toNat

@[simp]
theorem coverCount_empty (i : Nat) : coverCount .empty i = 0 :=
  rfl

theorem coverCount_eq_zero_iff {regs : Registers} {i : Nat} :
    coverCount regs i = 0 ↔ ∀ r ∈ regs.values, r.contains i = false := by
  rw [coverCount, sumOf_eq_zero_iff]
  simp only [Bool.toNat_eq_zero]

theorem covers_eq_false_iff {regs : Registers} {i : Nat} :
    covers regs i = false ↔ coverCount regs i = 0 := by
  rw [coverCount_eq_zero_iff, covers, List.any_eq_false]
  simp only [Bool.not_eq_true]

theorem covers_iff {regs : Registers} {i : Nat} :
    covers regs i = true ↔ coverCount regs i ≠ 0 := by
  rw [← Bool.not_eq_false, Ne, not_congr covers_eq_false_iff]

/-- The last index that there is is not covered. -/
theorem coverCount_of_le {regs : Registers} {i : Nat} (last : maxIndex ≤ i) :
    coverCount regs i = 0 := by
  refine coverCount_eq_zero_iff.mpr fun r _ => ?_
  by_contra inside
  exact absurd (lt_maxIndex_of_contains (Bool.eq_true_of_not_eq_false inside))
    (Nat.not_lt.mpr last)

/-! ## Look-up -/

/-- No register is found for exactly the indices that are not covered. -/
theorem locate?_eq_none_iff {regs : Registers} {i : Nat} :
    locate? regs i = none ↔ coverCount regs i = 0 := by
  rw [locate?, Option.map_eq_none_iff, List.find?_eq_none, coverCount_eq_zero_iff, values,
    List.forall_mem_map]
  simp only [Bool.not_eq_true]

/-- The register that is found covers the index. -/
theorem find?_of_locate? {regs : Registers} {i offset : Nat} {name : String}
    (located : locate? regs i = some (name, offset)) :
    ∃ r, regs.find? name = some r ∧ r.contains i = true ∧ offset = i - r.start := by
  rcases Option.map_eq_some_iff.mp located with ⟨⟨key, r⟩, found, equal⟩
  rcases Prod.mk.inj equal with ⟨rfl, rfl⟩
  exact ⟨r, find?_of_mem_entries (List.mem_of_find?_eq_some found),
    List.find?_some (p := fun e : String × Register => e.2.contains i) found, rfl⟩

/-- A covered index can be taken out of the register that is found for it. -/
theorem exists_takeOut {regs : Registers} {i : Nat} (covered : coverCount regs i ≠ 0) :
    ∃ name offset rest,
      locate? regs i = some (name, offset) ∧ remove regs name i = .ok rest := by
  cases located : locate? regs i with
  | none => exact absurd (locate?_eq_none_iff.mp located) covered
  | some place =>
      rcases place with ⟨name, offset⟩
      rcases find?_of_locate? located with ⟨r, found, inside, _⟩
      rcases exists_remove found inside with ⟨rest, removed⟩
      exact ⟨name, offset, rest, rfl, removed⟩

/-! ## Single indices -/

variable {regs rest : Registers} {name : String} {i start n : Nat}

theorem toNat_contains_single (small : i < maxIndex) (j : Nat) :
    ((⟨i, 1⟩ : Register).contains j).toNat = if j = i then 1 else 0 := by
  rw [(fits_single small).toNat_contains]
  dsimp only
  split_ifs <;> omega

theorem coverCount_add (fit : regs.Fit) (small : i < maxIndex) (name : String) (j : Nat) :
    coverCount (add regs i name) j = coverCount regs j + if j = i then 1 else 0 := by
  rw [coverCount, sumOf_add lasting_fits (additive_contains j) fit (fits_single small),
    toNat_contains_single small]
  rfl

theorem coverCount_remove (removed : remove regs name i = .ok rest) (j : Nat) :
    (coverCount rest j + if j = i then 1 else 0) = coverCount regs j := by
  obtain ⟨r, -, inside, -⟩ := remove_cases removed
  rw [← toNat_contains_single (lt_maxIndex_of_contains inside)]
  exact sumOf_remove (additive_contains j) removed

/-- An index that is covered once is not covered any more after it is removed. -/
theorem coverCount_remove_of_eq_one (removed : remove regs name i = .ok rest)
    (once : coverCount regs i = 1) (j : Nat) :
    coverCount rest j = if j = i then 0 else coverCount regs j := by
  have before := coverCount_remove removed j
  by_cases same : j = i
  · subst same
    rw [if_pos rfl] at before ⊢
    omega
  · rw [if_neg same] at before ⊢
    exact before

/-! ## Ranges at the end -/

theorem coverCount_growRegister (fit : regs.Fit) (new : start + n ≤ maxIndex)
    (unblocked : Circuit.blocked regs name start = false) (j : Nat) :
    coverCount (Circuit.growRegister regs name start n) j =
      coverCount regs j + if start ≤ j ∧ j < start + n then 1 else 0 := by
  have fits : (⟨start, n⟩ : Register).Fits := new
  rw [coverCount, sumOf_growRegister (additive_contains j) fit fits unblocked,
    fits.toNat_contains]
  rfl

theorem coverCount_insert {r : Register} (fits : r.Fits) (fresh : regs.contains name = false)
    (j : Nat) : coverCount (regs.insert name r) j =
      coverCount regs j + if r.start ≤ j ∧ j < r.start + r.size then 1 else 0 := by
  rw [coverCount, sumOf_insert _ _ fresh, fits.toNat_contains]
  rfl

/-! ## Sizes as indices -/

theorem totalSize_eq_wrapIndex (regs : Registers) :
    totalSize regs = wrapIndex (regs.sumOf Register.size) := by
  unfold totalSize sumOf
  congr 1
  induction regs.values with
  | nil => rfl
  | cons r rest ih => rw [List.foldr_cons, ih, List.map_cons, List.sum_cons]

/-- The total size is the total of the sizes up to multiples of the number of indices. -/
theorem natCast_totalSize (regs : Registers) :
    (totalSize regs : ZMod (maxIndex + 1)) = regs.sumOf residue := by
  rw [totalSize_eq_wrapIndex, natCast_wrapIndex, sumOf, sumOf, Nat.cast_list_sum, List.map_map]
  rfl

theorem wrapIndex_totalSize (regs : Registers) : wrapIndex (totalSize regs) = totalSize regs :=
  wrapIndex_of_le (wrapIndex_le _)

theorem totalSize_add (regs : Registers) (i : Nat) (name : String) :
    totalSize (add regs i name) = wrapIndex (totalSize regs + 1) := by
  rw [← wrapIndex_totalSize, ← natCast_eq_iff, natCast_totalSize,
    sumOf_add lasting_true additive_residue (fun _ _ _ => trivial) trivial, Nat.cast_add,
    natCast_totalSize]
  rfl

theorem totalSize_remove (removed : remove regs name i = .ok rest) :
    totalSize regs = wrapIndex (totalSize rest + 1) := by
  rw [← wrapIndex_totalSize regs, ← natCast_eq_iff, natCast_totalSize,
    ← sumOf_remove additive_residue removed, Nat.cast_add, natCast_totalSize]
  rfl

theorem totalSize_growRegister (n : Nat)
    (unblocked : Circuit.blocked regs name start = false) :
    totalSize (Circuit.growRegister regs name start n) = wrapIndex (totalSize regs + n) := by
  rw [← wrapIndex_totalSize, ← natCast_eq_iff, natCast_totalSize,
    sumOf_growRegister additive_residue (fun _ _ _ => trivial) trivial unblocked, Nat.cast_add,
    natCast_totalSize]
  rfl

/-! ## Sizes and coverage -/

/-- A range that fits, and does not reach beyond a bound, has as many indices as it covers below the
bound. -/
theorem size_eq_sum {r : Register} (fits : r.Fits)
    (beyond : ∀ i, n ≤ i → r.contains i = false) :
    r.size = ∑ i ∈ Finset.range n, (r.contains i).toNat := by
  have inside : (Finset.range n).filter (fun i => r.start ≤ i ∧ i < r.start + r.size) =
      Finset.Ico r.start (r.start + r.size) := by
    ext i
    rw [Finset.mem_filter, Finset.mem_range, Finset.mem_Ico]
    refine ⟨And.right, fun bounds => ⟨?_, bounds⟩⟩
    by_contra above
    have outside := beyond i (Nat.le_of_not_lt above)
    rw [fits.contains_iff.mpr bounds] at outside
    contradiction
  simp only [fits.toNat_contains]
  rw [← Finset.card_filter, inside, Nat.card_Ico]
  omega

/-- The sizes of ranges that fit count how often each index is covered. -/
theorem sumOf_size_eq_sum (fit : regs.Fit) (beyond : ∀ i, n ≤ i → coverCount regs i = 0) :
    regs.sumOf Register.size = ∑ i ∈ Finset.range n, coverCount regs i := by
  have each : ∀ r ∈ regs.values, r.Fits ∧ ∀ i, n ≤ i → r.contains i = false := by
    intro r mem
    obtain ⟨⟨name, r⟩, stored, rfl⟩ := List.mem_map.mp mem
    exact ⟨fit (find?_of_mem_entries stored),
      fun i above => coverCount_eq_zero_iff.mp (beyond i above) r mem⟩
  unfold coverCount sumOf
  revert each
  induction regs.values with
  | nil =>
      intro _
      simp
  | cons r rest ih =>
      intro each
      obtain ⟨fits, outside⟩ := each r List.mem_cons_self
      have tail := ih fun r mem => each r (List.mem_cons_of_mem _ mem)
      simp only [List.map_cons, List.sum_cons, Finset.sum_add_distrib]
      rw [size_eq_sum fits outside, tail]

/-- Where ranges fit and no index is covered twice, the sum of the sizes is an index. -/
theorem totalSize_eq_sumOf (fit : regs.Fit) (once : ∀ i, coverCount regs i ≤ 1) :
    totalSize regs = regs.sumOf Register.size := by
  have total := sumOf_size_eq_sum fit fun i (last : maxIndex ≤ i) => coverCount_of_le last
  have bound : regs.sumOf Register.size ≤ maxIndex := by
    calc
      regs.sumOf Register.size = ∑ i ∈ Finset.range maxIndex, coverCount regs i := total
      _ ≤ ∑ _i ∈ Finset.range maxIndex, 1 := Finset.sum_le_sum fun i _ => once i
      _ = maxIndex := by rw [Finset.sum_const, Finset.card_range, smul_eq_mul, mul_one]
  rw [totalSize_eq_wrapIndex, wrapIndex_of_le bound]

/-- So the total size counts the covered indices. -/
theorem totalSize_eq_sum (fit : regs.Fit) (once : ∀ i, coverCount regs i ≤ 1)
    (beyond : ∀ i, n ≤ i → coverCount regs i = 0) :
    totalSize regs = ∑ i ∈ Finset.range n, coverCount regs i :=
  (totalSize_eq_sumOf fit once).trans (sumOf_size_eq_sum fit beyond)

/-- An index that is not covered yet makes the total size larger by one. -/
theorem totalSize_add_of_free (fit : regs.Fit) (once : ∀ j, coverCount regs j ≤ 1)
    (free : coverCount regs i = 0) (small : i < maxIndex) (name : String) :
    totalSize (add regs i name) = totalSize regs + 1 := by
  have cover := coverCount_add fit small name
  have after : ∀ j, coverCount (add regs i name) j ≤ 1 := by
    intro j
    rw [cover]
    split
    · next same => rw [same, free]
    · exact once j
  rw [totalSize_eq_sum (fit.add lasting_fits (fits_single small) name) after
      fun j (last : maxIndex ≤ j) => coverCount_of_le last,
    totalSize_eq_sum fit once fun j (last : maxIndex ≤ j) => coverCount_of_le last]
  simp only [cover, Finset.sum_add_distrib, Finset.sum_ite_eq', Finset.mem_range, small, if_true]

/-- An index that is removed makes the total size smaller by one. -/
theorem totalSize_remove_of_once (fit : regs.Fit) (once : ∀ j, coverCount regs j ≤ 1)
    (removed : remove regs name i = .ok rest) : totalSize rest + 1 = totalSize regs := by
  obtain ⟨r, -, inside, -⟩ := remove_cases removed
  have small := lt_maxIndex_of_contains inside
  have cover := coverCount_remove removed
  have after : ∀ j, coverCount rest j ≤ 1 := by
    intro j
    have before := once j
    rw [← cover] at before
    omega
  rw [totalSize_eq_sum (fit.remove lasting_fits removed) after
      fun j (last : maxIndex ≤ j) => coverCount_of_le last,
    totalSize_eq_sum fit once fun j (last : maxIndex ≤ j) => coverCount_of_le last]
  simp only [← cover, Finset.sum_add_distrib, Finset.sum_ite_eq', Finset.mem_range, small, if_true]

end Registers

/-! ## Closing up -/

namespace Circuit

/-- An index before a lower or equal one has been removed: the inverse of `closeGap`. -/
def openGap (removed i : Nat) : Nat :=
  if i < removed then i else i + 1

theorem closeGap_openGap (removed i : Nat) : closeGap removed (openGap removed i) = i := by
  unfold closeGap openGap
  split_ifs <;> omega

theorem openGap_closeGap {removed i : Nat} (other : i ≠ removed) :
    openGap removed (closeGap removed i) = i := by
  unfold closeGap openGap
  split_ifs <;> omega

theorem openGap_ne (removed i : Nat) : openGap removed i ≠ removed := by
  unfold openGap
  split_ifs <;> omega

open Registers SortedMap Register

/-- Closing up the registers keeps what they cover, with the indices above the gap moved down. -/
theorem coverCount_closeRegisters {regs : Registers} (fit : regs.Fit) {p : Nat}
    (uncovered : coverCount regs p = 0) (j : Nat) :
    coverCount (closeRegisters p regs) j = coverCount regs (openGap p j) := by
  have outside := coverCount_eq_zero_iff.mp uncovered
  unfold coverCount closeRegisters
  rw [sumOf_consolidate lasting_fits (additive_contains j) (fit.moveDown p), sumOf_mapValues]
  apply sumOf_congr
  intro r mem
  obtain ⟨⟨name, r⟩, stored, rfl⟩ := List.mem_map.mp mem
  have fits : r.Fits := fit (find?_of_mem_entries stored)
  have notInside : ¬ (r.start ≤ p ∧ p < r.start + r.size) := by
    rw [← fits.contains_iff, outside r mem]
    exact Bool.false_ne_true
  have moved : Register.Fits (if p < r.start then ⟨r.start - 1, r.size⟩ else r) := by
    split
    · exact fits.within (by dsimp only; omega)
    · exact fits
  rw [fits.toNat_contains, moved.toNat_contains, openGap]
  split_ifs <;> dsimp only at * <;> omega

theorem totalSize_closeRegisters (regs : Registers) (p : Nat) :
    totalSize (closeRegisters p regs) = totalSize regs := by
  rw [← wrapIndex_totalSize, ← wrapIndex_totalSize regs, ← natCast_eq_iff, natCast_totalSize,
    natCast_totalSize, closeRegisters,
    sumOf_consolidate lasting_true additive_residue fun _ _ _ => trivial, sumOf_mapValues]
  apply sumOf_congr
  intro r _
  split <;> rfl

end Circuit

end QuantumCircuit
