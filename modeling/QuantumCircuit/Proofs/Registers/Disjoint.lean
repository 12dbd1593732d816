import QuantumCircuit.Proofs.Registers.Cover

/-!
# Registers that stay apart

Single indices are added to registers and removed from them in any order, under any names.  As long
as an index is added only where no register covers it, and is not the last one there is, no register
ever becomes empty and no two registers share an index.  What is covered changes by exactly the index
that is added or removed, whatever names are generated on the way, and no range is lost: additions
only make ranges grow together, and removals do not touch the registers of other names.

A register that reaches the last index there is has an end that wraps around, and then it does not
give up the indices that it should have.
-/

namespace QuantumCircuit.Registers

open SortedMap Register

variable {regs next rest : Registers} {name : String} {i : Nat}

/-! ## Disjoint ranges -/

/-- Whether no two registers share an index. -/
def Apart (regs : Registers) : Prop :=
  ∀ ⦃a b r s⦄, regs.find? a = some r → regs.find? b = some s → a ≠ b →
    ∀ i, r.contains i = true → s.contains i = false

theorem coverCount_ne_zero_iff :
    coverCount regs i ≠ 0 ↔ ∃ name r, regs.find? name = some r ∧ r.contains i = true := by
  rw [Ne, coverCount_eq_zero_iff, values, List.forall_mem_map]
  push Not
  constructor
  · rintro ⟨⟨name, r⟩, stored, inside⟩
    exact ⟨name, r, find?_of_mem_entries stored, Bool.eq_true_of_not_eq_false inside⟩
  · rintro ⟨name, r, found, inside⟩
    refine ⟨(name, r), mem_entries_of_find? found, ?_⟩
    rw [inside]
    exact Bool.noConfusion

/-- One register less covers its indices once less. -/
theorem coverCount_erase {r : Register} (found : regs.find? name = some r) (i : Nat) :
    coverCount (regs.erase name) i + (r.contains i).toNat = coverCount regs i :=
  sumOf_erase _ found

/-- Registers are apart if no index is covered twice. -/
theorem apart_iff : Apart regs ↔ ∀ i, coverCount regs i ≤ 1 := by
  constructor
  · intro apart i
    by_contra twice
    obtain ⟨a, r, foundA, insideA⟩ := coverCount_ne_zero_iff.mp (by omega : coverCount regs i ≠ 0)
    have once := coverCount_erase foundA i
    rw [insideA, Bool.toNat_true] at once
    obtain ⟨b, s, foundB, insideB⟩ :=
      coverCount_ne_zero_iff.mp (by omega : coverCount (regs.erase a) i ≠ 0)
    rw [find?_erase] at foundB
    split at foundB
    · contradiction
    · next other =>
        have outside := apart foundA foundB (Ne.symm other) i insideA
        rw [insideB] at outside
        contradiction
  · intro once a b r s foundA foundB other i insideA
    by_contra insideB
    have erased := coverCount_erase foundA i
    rw [insideA, Bool.toNat_true] at erased
    have foundB' : (regs.erase a).find? b = some s := by
      rw [find?_erase, if_neg (Ne.symm other), foundB]
    have twice : coverCount (regs.erase a) i ≠ 0 :=
      coverCount_ne_zero_iff.mpr ⟨b, s, foundB', Bool.eq_true_of_not_eq_false insideB⟩
    have bound := once i
    omega

/-- Two ranges share no index if one has none or ends before the other starts. -/
theorem disjoint_iff {r s : Register} :
    (∀ i, r.contains i = true → s.contains i = false) ↔
      r.stop ≤ r.start ∨ s.stop ≤ s.start ∨ r.stop ≤ s.start ∨ s.stop ≤ r.start := by
  simp only [← Bool.not_eq_true, contains_iff]
  constructor
  · intro apart
    have first := apart (max r.start s.start)
    omega
  · intro ordered i inside
    omega

/-- Of any two registers that are apart one has no index or ends before the other starts. -/
theorem apart_iff_entries : Apart regs ↔ ∀ e ∈ regs.entries, ∀ f ∈ regs.entries, e.1 ≠ f.1 →
    e.2.stop ≤ e.2.start ∨ f.2.stop ≤ f.2.start ∨
      e.2.stop ≤ f.2.start ∨ f.2.stop ≤ e.2.start := by
  constructor
  · intro apart e stored f stored' other
    exact disjoint_iff.mp
      (apart (find?_of_mem_entries stored) (find?_of_mem_entries stored') other)
  · intro ordered a b r s foundA foundB other
    exact disjoint_iff.mpr
      (ordered (a, r) (mem_entries_of_find? foundA) (b, s) (mem_entries_of_find? foundB) other)

instance (regs : Registers) : Decidable regs.Apart :=
  decidable_of_iff _ apart_iff_entries.symm

/-- Registers without empty ranges and without the last index there is, no two of which share an
index. -/
structure Tidy (regs : Registers) : Prop where
  /-- No register is empty or reaches the last index. -/
  proper : regs.Proper
  /-- No two registers share an index. -/
  apart : regs.Apart

/-- Ranges can be checked on the entries: of two, one ends before the other starts. -/
theorem tidy_of_entries (proper : ∀ e ∈ regs.entries, e.2.Proper)
    (apart : ∀ e ∈ regs.entries, ∀ f ∈ regs.entries, e.1 ≠ f.1 →
      e.2.stop ≤ f.2.start ∨ f.2.stop ≤ e.2.start) : regs.Tidy where
  proper := all_of_entries proper
  apart := apart_iff_entries.mpr fun e stored f stored' other =>
    .inr (.inr (apart e stored f stored' other))

/-! ## Ranges that are not lost -/

/-- Whether every range lies within one of the ranges after a change. -/
def Embeds (regs next : Registers) : Prop :=
  ∀ ⦃name r⦄, regs.find? name = some r →
    ∃ name' r', next.find? name' = some r' ∧ r'.start ≤ r.start ∧ r.stop ≤ r'.stop

theorem embeds_refl (regs : Registers) : regs.Embeds regs :=
  fun name r found => ⟨name, r, found, Nat.le_refl _, Nat.le_refl _⟩

theorem Embeds.trans (first : regs.Embeds next) (second : next.Embeds rest) :
    regs.Embeds rest := by
  intro name r found
  obtain ⟨_, _, foundNext, lowNext, highNext⟩ := first found
  obtain ⟨name', r', foundRest, lowRest, highRest⟩ := second foundNext
  exact ⟨name', r', foundRest, lowRest.trans lowNext, highNext.trans highRest⟩

/-- Storing a range keeps the others, and the one that it replaces if it contains it. -/
theorem embeds_insert {r : Register} (contained : ∀ old, regs.find? name = some old →
    r.start ≤ old.start ∧ old.stop ≤ r.stop) : regs.Embeds (regs.insert name r) := by
  intro other old found
  by_cases same : other = name
  · subst same
    exact ⟨other, r, by rw [find?_insert, if_pos rfl], contained old found⟩
  · refine ⟨other, old, ?_, Nat.le_refl _, Nat.le_refl _⟩
    rw [find?_insert, if_neg same, found]

theorem embeds_insert_fresh (r : Register) (fresh : regs.contains name = false) :
    regs.Embeds (regs.insert name r) := by
  apply embeds_insert
  intro old found
  rw [contains_eq_false_iff, found] at fresh
  contradiction

/-- Two ranges that touch lie within the range that they are joined to. -/
theorem within_join {low high : Register} (fitsLow : low.Fits) (fitsHigh : high.Fits)
    (touch : low.stop = high.start) : (low.join high).start ≤ high.start ∧
      low.stop ≤ (low.join high).stop ∧ high.stop ≤ (low.join high).stop := by
  have joined := fitsLow.join_eq fitsHigh touch
  have fits := fitsLow.join fitsHigh touch
  rw [joined] at fits ⊢
  rw [fits.stop_eq, fitsHigh.stop_eq, fitsLow.stop_eq]
  rw [fitsLow.stop_eq] at touch
  dsimp only
  omega

/-- Two halves lie within the range that they are joined to, and the name that it gets was free. -/
theorem embeds_joinHalves? (fit : regs.Fit) {base : String}
    (joined : joinHalves? regs base = some next) : regs.Embeds next := by
  obtain ⟨low, high, foundLow, foundHigh, touch, free, rfl⟩ := joinHalves?_eq_some_iff.mp joined
  obtain ⟨start, stopLow, stopHigh⟩ :=
    within_join (fit foundLow) (fit foundHigh) touch
  intro name r found
  by_cases isLow : name = lowName base
  · subst isLow
    obtain rfl := Option.some.inj (foundLow.symm.trans found)
    exact ⟨base, low.join high, by rw [find?_insert, if_pos rfl], Nat.le_refl _, stopLow⟩
  · by_cases isHigh : name = highName base
    · subst isHigh
      obtain rfl := Option.some.inj (foundHigh.symm.trans found)
      exact ⟨base, low.join high, by rw [find?_insert, if_pos rfl], start, stopHigh⟩
    · have other : name ≠ base := by
        rintro rfl
        rw [contains_eq_false_iff, found] at free
        contradiction
      refine ⟨name, r, ?_, Nat.le_refl _, Nat.le_refl _⟩
      rw [find?_insert, if_neg other, find?_erase, if_neg isHigh, find?_erase, if_neg isLow, found]

theorem embeds_consolidate (fit : regs.Fit) : regs.Embeds (consolidate regs) := by
  refine (consolidate_keeps (fun next => next.Fit ∧ regs.Embeds next) (fun joined before => ?_)
    ⟨fit, embeds_refl regs⟩).2
  exact ⟨before.1.joinHalves? lasting_fits joined,
    before.2.trans (embeds_joinHalves? before.1 joined)⟩

theorem extend?_contains {r extended : Register} (fits : r.Fits) (small : i < maxIndex)
    (adjacent : extend? r i = some extended) :
    extended.start ≤ r.start ∧ r.stop ≤ extended.stop := by
  rcases extend?_cases adjacent with ⟨above, rfl⟩ | ⟨below, rfl⟩
  · obtain ⟨start, -, stop⟩ := within_join (fits_single small) fits above
    exact ⟨start, stop⟩
  · exact ⟨Nat.le_refl _, (within_join fits (fits_single small) below).2.1⟩

/-- Adding an index loses no range: the name of a new register is free, and ranges that are joined
lie within the joined one. -/
theorem embeds_add (fit : regs.Fit) (small : i < maxIndex) (name : String) :
    regs.Embeds (add regs i name) := by
  rcases add_cases regs i name with ⟨rfl, added⟩ |
    ⟨key, old, grown, found, extended, added⟩ | ⟨-, added⟩
  · rw [added]
    exact embeds_insert_fresh _ (contains_empty name)
  · have fits := lasting_fits.extend? (fit found) (fits_single small) extended
    rw [added]
    refine (embeds_insert fun old' found' => ?_).trans (embeds_consolidate (fit.insert key fits))
    obtain rfl := Option.some.inj (found.symm.trans found')
    exact extend?_contains (fit found) small extended
  · rw [added]
    exact embeds_insert_fresh _ (contains_freshName regs _)

/-- Removing an index does not touch the registers of other names. -/
theorem find?_remove (removed : remove regs name i = .ok rest) {other : String} {r : Register}
    (different : other ≠ name) (found : regs.find? other = some r) :
    rest.find? other = some r := by
  -- The names of the halves are free, so neither of them is the other register's.
  have notFresh : ∀ {regs : Registers} {base : String},
      regs.find? other = some r → other ≠ freshName regs base := by
    rintro regs base present rfl
    rw [contains_eq_false_iff.mp (contains_freshName regs base)] at present
    contradiction
  have stored : (regs.erase name).find? other = some r := by
    rw [find?_erase, if_neg different, found]
  obtain ⟨_, -, -, ⟨-, rfl⟩ | ⟨-, -, rfl⟩ | ⟨-, -, rfl⟩ | ⟨-, -, rfl⟩⟩ := remove_cases removed
  · exact stored
  · rw [find?_insert, if_neg different, found]
  · rw [find?_insert, if_neg different, found]
  · have withLow : other ≠ freshName (regs.erase name) (lowName name) := notFresh stored
    rw [find?_insert, if_neg (notFresh ?_), find?_insert, if_neg withLow, stored]
    rw [find?_insert, if_neg withLow, stored]

/-! ## Refusals -/

/-- A removal is refused for a name that there is not, and for an index that its register does not
cover. -/
theorem remove_eq_error_iff {cause : CircuitError} : remove regs name i = .error cause ↔
    (regs.find? name = none ∧ cause = .registerNotFound name) ∨
    ∃ r, regs.find? name = some r ∧ r.contains i = false ∧
      cause = .indexOutsideRegister name i r.start r.size := by
  constructor
  · intro refused
    unfold remove at refused
    split at refused
    · next missing => exact .inl ⟨missing, (Except.error.inj refused).symm⟩
    · next r found =>
        split at refused
        · next outside =>
            exact .inr ⟨r, found, Bool.not_eq_true' _ ▸ outside, (Except.error.inj refused).symm⟩
        · split_ifs at refused
  · rintro (⟨missing, rfl⟩ | ⟨r, found, outside, rfl⟩)
    · rw [remove, missing]
    · rw [remove, found]
      exact if_pos (by rw [outside, Bool.not_false])

/-! ## Runs -/

/-- What an index adds to registers. -/
structure Gained (regs next : Registers) (i : Nat) : Prop where
  /-- The registers stay apart, and none is empty. -/
  tidy : next.Tidy
  /-- Exactly this index is covered as well. -/
  covers_eq : ∀ j, covers next j = (covers regs j || j == i)
  /-- There is one index more. -/
  totalSize_eq : totalSize next = totalSize regs + 1
  /-- No range is lost. -/
  embeds : regs.Embeds next

/-- What registers lose with an index of one of them. -/
structure Lost (regs rest : Registers) (name : String) (i : Nat) : Prop where
  /-- The registers stay apart, and none is empty. -/
  tidy : rest.Tidy
  /-- The index was covered. -/
  covered : covers regs i = true
  /-- Exactly this index is not covered any more. -/
  covers_eq : ∀ j, covers rest j = (covers regs j && j != i)
  /-- There is one index less. -/
  totalSize_eq : totalSize rest + 1 = totalSize regs
  /-- The registers of other names are there as before. -/
  others : ∀ {other r}, other ≠ name → regs.find? other = some r → rest.find? other = some r

theorem covers_eq_of_coverCount {b : Bool} (agree : coverCount regs i ≠ 0 ↔ b = true) :
    covers regs i = b := by
  rw [Bool.eq_iff_iff, covers_iff, agree]

/-- An index that is not covered, and is not the last one there is, is gained by adding it. -/
theorem Tidy.gained (tidy : regs.Tidy) (free : covers regs i = false) (small : i < maxIndex)
    (name : String) : Gained regs (add regs i name) i := by
  have fit := tidy.proper.fit
  have cover := coverCount_add fit small name
  have uncovered := covers_eq_false_iff.mp free
  have once : ∀ j, coverCount (add regs i name) j ≤ 1 := by
    intro j
    rw [cover]
    split
    · next same => rw [same, uncovered]
    · exact apart_iff.mp tidy.apart j
  have single : Register.Proper ⟨i, 1⟩ := ⟨Nat.one_pos, fits_single small⟩
  refine ⟨⟨tidy.proper.add lasting_proper single name, apart_iff.mpr once⟩, fun j => ?_,
    totalSize_add_of_free fit (apart_iff.mp tidy.apart) uncovered small name,
    embeds_add fit small name⟩
  · apply covers_eq_of_coverCount
    rw [cover, Bool.or_eq_true, covers_iff, beq_iff_eq]
    split
    · next same => simp [same]
    · next other => simp [other]

/-- An index that a register gives up is lost. -/
theorem Tidy.lost (tidy : regs.Tidy) (removed : remove regs name i = .ok rest) :
    Lost regs rest name i := by
  have once := apart_iff.mp tidy.apart
  have before := coverCount_remove removed
  have covered : coverCount regs i = 1 := by
    have bound := once i
    have drop := before i
    rw [if_pos rfl] at drop
    omega
  have after := coverCount_remove_of_eq_one removed covered
  refine ⟨⟨tidy.proper.remove lasting_proper removed, apart_iff.mpr fun j => ?_⟩, ?_,
    fun j => ?_, totalSize_remove_of_once tidy.proper.fit once removed, find?_remove removed⟩
  · rw [after]
    split
    · exact Nat.zero_le 1
    · exact once j
  · rw [covers_iff, covered]
    exact Nat.one_ne_zero
  · apply covers_eq_of_coverCount
    rw [after, Bool.and_eq_true, covers_iff, bne_iff_ne]
    split
    · next same => simp [same]
    · next other => simp [other]

/-- A change of registers by one index. -/
inductive Change where
  /-- `add`. -/
  | add (i : Nat) (name : String)
  /-- `remove`. -/
  | remove (name : String) (i : Nat)

/-- The registers after a change; one that is refused leaves them. -/
def Change.run (regs : Registers) : Change → Registers
  | .add i name => Registers.add regs i name
  | .remove name i =>
      match Registers.remove regs name i with
      | .ok rest => rest
      | .error _ => regs

/-- Whether an index that is added is free and not the last one there is. -/
def Change.Fits (regs : Registers) : Change → Prop
  | .add i _ => covers regs i = false ∧ i < maxIndex
  | .remove _ _ => True

/-- The registers that changes lead to. -/
inductive Changed (start : Registers) : Registers → Prop where
  /-- The registers at the start. -/
  | start : Changed start start
  /-- The registers after one more change. -/
  | step {regs : Registers} {change : Change} (reached : Changed start regs)
      (fits : change.Fits regs) : Changed start (change.run regs)

/-- Each change keeps registers tidy. -/
theorem Tidy.run (tidy : regs.Tidy) {change : Change} (fits : change.Fits regs) :
    (change.run regs).Tidy := by
  cases change with
  | add i name => exact (tidy.gained fits.1 fits.2 name).tidy
  | remove name i =>
      rw [Change.run]
      cases removed : Registers.remove regs name i with
      | ok rest => exact (tidy.lost removed).tidy
      | error cause => exact tidy

theorem Changed.tidy {start : Registers} (reached : Changed start regs) (tidy : start.Tidy) :
    regs.Tidy := by
  induction reached with
  | start => exact tidy
  | step _ fits ih => exact ih.run fits

/-- A removal from registers that fit is refused for a name that there is not, and for an index that
is not in the interval of the register. -/
theorem Fit.remove_eq_error_iff (fit : regs.Fit) {cause : CircuitError} :
    remove regs name i = .error cause ↔
      (regs.find? name = none ∧ cause = .registerNotFound name) ∨
      ∃ r, regs.find? name = some r ∧ ¬ (r.start ≤ i ∧ i < r.start + r.size) ∧
        cause = .indexOutsideRegister name i r.start r.size := by
  rw [Registers.remove_eq_error_iff]
  refine or_congr_right (exists_congr fun r => and_congr_right fun found => ?_)
  rw [← (fit found).contains_iff, Bool.not_eq_true]

end QuantumCircuit.Registers
