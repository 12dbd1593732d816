import QuantumCircuit.Proofs.Registers.Joining

/-!
# Splitting a register and joining it again

Removing an index from the inside of a register leaves two halves, and adding the index again
extends one of them, because no other register touches the gap.  Then the halves touch, and joining
them gives the register back.  The other registers of a settled map cannot be joined while one of
them is split: the only name that is freed is that of the split register, and its halves are the
ones that are joined.
-/

namespace QuantumCircuit.Registers

open SortedMap Relation

variable {regs : Registers} {name : String} {r low high : Register} {i : Nat}

/-! ## Settled registers -/

/-- Whether no halves can be joined. -/
def Settled (regs : Registers) : Prop :=
  consolidate regs = regs

theorem Settled.irreducible (settled : regs.Settled) (next : Registers) : ¬ Joins regs next := by
  have irreducible := irreducible_consolidateUpTo (Nat.le_refl regs.size) next
  have same : consolidateUpTo regs.size regs = regs := settled
  rwa [same] at irreducible

/-- Settled registers are what joining halves leads to, from wherever they are one join away. -/
theorem Settled.consolidate_eq (settled : regs.Settled) {apart : Registers}
    (joins : Joins apart regs) : consolidate apart = regs :=
  irreducible_unique (reaches_consolidateUpTo apart.size apart) (.single joins)
    (irreducible_consolidateUpTo (Nat.le_refl apart.size)) settled.irreducible

/-! ## Halves -/

/-- The registers with two halves in place of the named one. -/
def halved (regs : Registers) (name : String) (low high : Register) : Registers :=
  ((regs.erase name).insert (lowName name) low).insert (highName name) high

theorem find?_halved (regs : Registers) (name : String) (low high : Register) (a : String) :
    (halved regs name low high).find? a =
      if a = highName name then some high else if a = lowName name then some low
      else if a = name then none else regs.find? a := by
  rw [halved, find?_insert, find?_insert, find?_erase]

theorem insert_high_halved (regs : Registers) (name : String) (low high grown : Register) :
    (halved regs name low high).insert (highName name) grown = halved regs name low grown := by
  apply ext_find?
  intro a
  rw [find?_insert, find?_halved, find?_halved]
  split_ifs <;> rfl

theorem insert_low_halved (regs : Registers) (name : String) (low high grown : Register) :
    (halved regs name low high).insert (lowName name) grown = halved regs name grown high := by
  apply ext_find?
  intro a
  rw [find?_insert, find?_halved, find?_halved]
  split_ifs with isLow isHigh
  · exact absurd (isLow.symm.trans isHigh) (lowName_ne_highName name name)
  all_goals rfl

/-- A register whose halves can have their usual names. -/
structure Splittable (regs : Registers) (name : String) (r : Register) : Prop where
  /-- The name is not empty. -/
  named : name ≠ ""
  /-- The register is there. -/
  found : regs.find? name = some r
  /-- The name of the low half is free. -/
  freeLow : regs.contains (lowName name) = false
  /-- The name of the high half is free. -/
  freeHigh : regs.contains (highName name) = false

/-- Halves that touch and make up a register are joined to that register. -/
theorem Splittable.joins (splittable : regs.Splittable name r) (touch : low.stop = high.start)
    (whole : low.join high = r) : Joins (halved regs name low high) regs := by
  have found := splittable.found
  have freeLow := contains_eq_false_iff.mp splittable.freeLow
  have freeHigh := contains_eq_false_iff.mp splittable.freeHigh
  have notLow : name ≠ lowName name := fun same => by
    rw [← same, found] at freeLow
    contradiction
  have notHigh : name ≠ highName name := fun same => by
    rw [← same, found] at freeHigh
    contradiction
  refine ⟨name, low, high, ⟨splittable.named, ?_, ?_, touch, ?_⟩, ext_find? fun a => ?_⟩
  · rw [find?_halved, if_neg (lowName_ne_highName name name), if_pos rfl]
  · rw [find?_halved, if_pos rfl]
  · rw [contains_eq_false_iff, find?_halved, if_neg notHigh, if_neg notLow, if_pos rfl]
  · rw [find?_joined, whole, find?_halved]
    split_ifs with isName isHalf isHigh isLow
    · rw [isName, found]
    · rcases isHalf with rfl | rfl
      · exact freeHigh
      · exact freeLow
    · exact absurd (.inl isHigh) isHalf
    · exact absurd (.inr isLow) isHalf
    · rfl

/-- No other register touches an index inside of a register. -/
theorem Tidy.untouched (tidy : regs.Tidy) (found : regs.find? name = some r) (above : r.start < i)
    (below : i + 1 < r.stop) {key : String} {old : Register} (foundOld : regs.find? key = some old)
    (other : key ≠ name) : extend? old i = none := by
  have fits := (tidy.proper found).fits
  have old_pos := (tidy.proper foundOld).pos
  have fitsOld := (tidy.proper foundOld).fits
  have apart : ∀ j, r.contains j = true → ¬ old.contains j = true := fun j inside =>
    Bool.not_eq_true _ ▸ tidy.apart found foundOld (Ne.symm other) j inside
  simp only [Register.contains_iff, fitsOld.stop_eq] at apart
  rw [Option.eq_none_iff_forall_ne_some]
  intro grown extended
  rcases extend?_cases extended with ⟨starts, -⟩ | ⟨stops, -⟩
  · have next : i < maxIndex := by
      have small : r.stop ≤ maxIndex := wrapIndex_le _
      omega
    rw [(Register.fits_single next).stop_eq] at starts
    exact apart (i + 1) ⟨by omega, below⟩ ⟨starts.ge, by dsimp only at starts; omega⟩
  · rw [fitsOld.stop_eq] at stops
    exact apart (i - 1) ⟨by omega, by omega⟩ ⟨by omega, by omega⟩

/-! ## Removing an index and adding it again -/

/-- An index inside of a register splits it into halves with their usual names. -/
theorem Splittable.remove_eq (splittable : regs.Splittable name r) (above : r.start < i)
    (below : i + 1 < r.stop) : remove regs name i =
      .ok (halved regs name ⟨r.start, i - r.start⟩ ⟨i + 1, r.stop - i - 1⟩) := by
  have inside : r.contains i = true := Register.contains_iff.mpr (by omega)
  have bound : r.stop ≤ r.start + r.size := wrapIndex_le_self _
  have several : r.size ≠ 1 := by omega
  have notFirst : i ≠ r.start := by omega
  have notLast : i ≠ r.stop - 1 := by omega
  have freeLow : (regs.erase name).contains (lowName name) = false := by
    rw [contains_eq_false_iff, find?_erase, contains_eq_false_iff.mp splittable.freeLow, ite_self]
  have freeHigh : ((regs.erase name).insert (lowName name) ⟨r.start, i - r.start⟩).contains
      (highName name) = false := by
    rw [contains_eq_false_iff, find?_insert, if_neg (lowName_ne_highName name name).symm,
      find?_erase, contains_eq_false_iff.mp splittable.freeHigh, ite_self]
  simp only [remove, splittable.found, inside, Bool.not_true, Bool.false_eq_true, if_false, several,
    notFirst, notLast, freshName_of_free freeLow, freshName_of_free freeHigh]
  rfl

/-- What touches the index between two halves is one of them, and together with the index it makes
up the register with the other one. -/
theorem Splittable.touching (splittable : regs.Splittable name r) (tidy : regs.Tidy)
    (above : r.start < i) (below : i + 1 < r.stop) {key : String} {old grown : Register}
    (found : (halved regs name ⟨r.start, i - r.start⟩ ⟨i + 1, r.stop - i - 1⟩).find? key = some old)
    (extended : extend? old i = some grown) :
    (key = highName name ∧ grown = ⟨i, r.stop - i⟩) ∨
      (key = lowName name ∧ grown = ⟨r.start, i + 1 - r.start⟩) := by
  have small : r.stop ≤ maxIndex := wrapIndex_le _
  have single : (⟨i, 1⟩ : Register).Fits := Register.fits_single (by omega)
  have low : (⟨r.start, i - r.start⟩ : Register).Fits := by
    unfold Register.Fits
    dsimp only
    omega
  have high : (⟨i + 1, r.stop - i - 1⟩ : Register).Fits := by
    unfold Register.Fits
    dsimp only
    omega
  rw [find?_halved] at found
  split_ifs at found with isHigh isLow isName
  · obtain rfl := Option.some.inj found
    rcases extend?_cases extended with ⟨touch, rfl⟩ | ⟨ends, -⟩
    · refine .inl ⟨isHigh, ?_⟩
      rw [single.join_eq high touch]
      dsimp only
      congr 1
      omega
    · rw [high.stop_eq] at ends
      dsimp only at ends
      omega
  · obtain rfl := Option.some.inj found
    rcases extend?_cases extended with ⟨starts, -⟩ | ⟨touch, rfl⟩
    · rw [single.stop_eq] at starts
      dsimp only at starts
      omega
    · refine .inr ⟨isLow, ?_⟩
      rw [low.join_eq single touch]
      dsimp only
      congr 1
      omega
  · rw [tidy.untouched splittable.found above below found isName] at extended
    contradiction

end QuantumCircuit.Registers
