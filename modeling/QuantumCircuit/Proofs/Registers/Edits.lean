import QuantumCircuit.Proofs.Registers.Names

/-!
# What the edits of registers do

Each edit is read once: what joining halves replaces, which register an addition extends or stores,
and which ranges a removal leaves.  The properties that edits keep are derived from that.

Ends of ranges wrap around.  What is proved for ranges as intervals is proved for those that fit, and
edits of indices below the last one keep ranges that fit.
-/

namespace QuantumCircuit

/-! ## Ranges -/

namespace Register

variable {r low high : Register} {i : Nat}

theorem contains_iff : r.contains i = true ↔ r.start ≤ i ∧ i < r.stop := by
  rw [contains, Bool.and_eq_true, decide_eq_true_eq, decide_eq_true_eq]

/-- The last index that there is is not found in any range. -/
theorem lt_maxIndex_of_contains (inside : r.contains i = true) : i < maxIndex :=
  Nat.lt_of_lt_of_le (contains_iff.mp inside).2 (wrapIndex_le _)

/-- What is found in a range is one of as many indices from the start on as its size says. -/
theorem lt_of_contains (inside : r.contains i = true) : i < r.start + r.size :=
  Nat.lt_of_lt_of_le (contains_iff.mp inside).2 (wrapIndex_le_self _)

theorem Fits.contains_iff (fits : r.Fits) :
    r.contains i = true ↔ r.start ≤ i ∧ i < r.start + r.size := by
  rw [Register.contains_iff, fits.stop_eq]

theorem fits_single (small : i < maxIndex) : (⟨i, 1⟩ : Register).Fits :=
  small

/-- A range that lies within one that fits does so as well. -/
theorem Fits.within (fits : r.Fits) (within : low.start + low.size ≤ r.start + r.size) : low.Fits :=
  Nat.le_trans within fits

/-- Two ranges that touch make up an interval. -/
theorem Fits.join_eq (fitsLow : low.Fits) (fitsHigh : high.Fits) (touch : low.stop = high.start) :
    low.join high = ⟨low.start, low.size + high.size⟩ := by
  rw [fitsLow.stop_eq] at touch
  have small : low.size + high.size ≤ maxIndex := by
    unfold Fits at fitsHigh
    omega
  rw [join, wrapIndex_of_le small]

theorem Fits.join (fitsLow : low.Fits) (fitsHigh : high.Fits) (touch : low.stop = high.start) :
    (low.join high).Fits := by
  rw [fitsLow.join_eq fitsHigh touch]
  rw [fitsLow.stop_eq] at touch
  unfold Fits at fitsHigh ⊢
  dsimp only
  omega

end Register

namespace Registers

open SortedMap Register

variable {regs next rest : Registers} {name : String} {i : Nat}

/-! ## Joining halves -/

/-- Halves are joined if both are there, they touch, and their common name is free. -/
theorem joinHalves?_eq_some_iff {base : String} :
    joinHalves? regs base = some next ↔ ∃ low high,
      regs.find? (lowName base) = some low ∧ regs.find? (highName base) = some high ∧
      low.stop = high.start ∧ regs.contains base = false ∧
      next = ((regs.erase (lowName base)).erase (highName base)).insert base (low.join high) := by
  constructor
  · intro joined
    unfold joinHalves? at joined
    split at joined
    · next low high foundLow foundHigh =>
        split at joined
        · next touching =>
            exact ⟨low, high, foundLow, foundHigh, touching.1, touching.2,
              (Option.some.inj joined).symm⟩
        · contradiction
    · contradiction
  · rintro ⟨low, high, foundLow, foundHigh, touch, free, rfl⟩
    rw [joinHalves?, foundLow, foundHigh]
    exact if_pos ⟨touch, free⟩

/-- What joining the halves of a name keeps, joining all halves keeps. -/
theorem consolidate_keeps (holds : Registers → Prop)
    (each : ∀ {regs next base}, joinHalves? regs base = some next → holds regs → holds next)
    (before : holds regs) : holds (consolidate regs) := by
  have upTo : ∀ n regs, holds regs → holds (consolidateUpTo n regs) := by
    intro n
    induction n with
    | zero => exact fun _ before => before
    | succ n ih =>
        intro regs before
        unfold consolidateUpTo
        split
        · next next joined =>
            obtain ⟨key, -, found⟩ := List.exists_of_findSome?_eq_some joined
            obtain ⟨base, -, joinedBase⟩ := Option.bind_eq_some_iff.mp found
            exact ih next (each joinedBase before)
        · exact before
  exact upTo regs.size regs before

/-! ## Single indices -/

/-- A register takes up the index before it or the index after it: it is joined with that index. -/
theorem extend?_cases {r grown : Register} (extended : extend? r i = some grown) :
    (stop ⟨i, 1⟩ = r.start ∧ grown = (⟨i, 1⟩ : Register).join r) ∨
      (r.stop = i ∧ grown = r.join ⟨i, 1⟩) := by
  unfold extend? at extended
  split_ifs at extended with above below
  · exact .inl ⟨above.symm, (Option.some.inj extended).symm⟩
  · exact .inr ⟨below, (Option.some.inj extended).symm⟩

/-- An index that is added becomes the first register, extends a register that it touches, or gets a
register of its own. -/
theorem add_cases (regs : Registers) (i : Nat) (name : String) :
    (regs = .empty ∧ add regs i name = regs.insert name ⟨i, 1⟩) ∨
    (∃ key old grown, regs.find? key = some old ∧ extend? old i = some grown ∧
      add regs i name = consolidate (regs.insert key grown)) ∨
    ((∀ key old, regs.find? key = some old → extend? old i = none) ∧
      add regs i name = regs.insert (freshName regs (numbered name i)) ⟨i, 1⟩) := by
  unfold add
  split
  · next isEmpty => exact .inl ⟨ext_entries (List.isEmpty_iff.mp isEmpty), rfl⟩
  · split
    · next key grown found =>
        obtain ⟨⟨_, old⟩, stored, adjacent⟩ := List.exists_of_findSome?_eq_some found
        obtain ⟨_, extended, equal⟩ := Option.map_eq_some_iff.mp adjacent
        obtain ⟨rfl, rfl⟩ := Prod.mk.inj equal
        exact .inr (.inl ⟨_, old, _, find?_of_mem_entries stored, extended, rfl⟩)
    · next untouched =>
        refine .inr (.inr ⟨fun key old found => ?_, rfl⟩)
        have missed := List.findSome?_eq_none_iff.mp untouched _ (mem_entries_of_find? found)
        exact Option.map_eq_none_iff.mp missed

/-- A register that gives up an index is dropped, loses its first or its last index, or is split
into two registers with free names. -/
theorem remove_cases (removed : remove regs name i = .ok rest) :
    ∃ r, regs.find? name = some r ∧ r.contains i = true ∧
      ((r.size = 1 ∧ rest = regs.erase name) ∨
        (1 < r.size ∧ i = r.start ∧ rest = regs.insert name ⟨r.start + 1, r.size - 1⟩) ∨
        (1 < r.size ∧ i + 1 = r.stop ∧ rest = regs.insert name ⟨r.start, r.size - 1⟩) ∨
        (r.start < i ∧ i + 1 < r.stop ∧
          let dropped := regs.erase name
          let withLow :=
            dropped.insert (freshName dropped (lowName name)) ⟨r.start, i - r.start⟩
          rest = withLow.insert (freshName withLow (highName name))
            ⟨i + 1, r.stop - i - 1⟩)) := by
  unfold remove at removed
  split at removed
  · contradiction
  · next r found =>
      split at removed
      · contradiction
      · next notOutside =>
          have inside : r.contains i = true := by simpa using notOutside
          obtain ⟨low, high⟩ := contains_iff.mp inside
          have bound := lt_of_contains inside
          refine ⟨r, found, inside, ?_⟩
          split_ifs at removed with single first last
          · exact .inl ⟨single, (Except.ok.inj removed).symm⟩
          · exact .inr (.inl ⟨by omega, first, (Except.ok.inj removed).symm⟩)
          · exact .inr (.inr (.inl ⟨by omega, by omega, (Except.ok.inj removed).symm⟩))
          · exact .inr (.inr (.inr ⟨by omega, by omega, (Except.ok.inj removed).symm⟩))

/-- A register gives up any index that is found in it. -/
theorem exists_remove {r : Register} (found : regs.find? name = some r)
    (inside : r.contains i = true) : ∃ rest, remove regs name i = .ok rest := by
  unfold remove
  simp only [found, inside, Bool.not_true, Bool.false_eq_true, if_false]
  split
  · exact ⟨_, rfl⟩
  · split
    · exact ⟨_, rfl⟩
    · split <;> exact ⟨_, rfl⟩

end Registers

end QuantumCircuit
