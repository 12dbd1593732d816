import Mathlib.Logic.Relation
import QuantumCircuit.Proofs.Registers.Disjoint

/-!
# Joining halves in any order

Two halves that touch can be joined if their common name is free.  A join can make another one
possible, because it stores a name and frees two, but it never makes one impossible: the names that
two joins use are all different, so each of the two can still be made after the other.  Hence it
does not matter in which order halves are joined, and `consolidate`, which looks for them in name
order, gives the only result there is.
-/

namespace QuantumCircuit.Registers

open SortedMap Relation

variable {regs next first second last : Registers} {base other name : String}
  {low high low' high' : Register}

/-! ## One join -/

/-- Whether two ranges are the halves of a name and can be joined. -/
structure Joinable (regs : Registers) (base : String) (low high : Register) : Prop where
  /-- The name is not empty. -/
  named : base ≠ ""
  /-- The low half is there. -/
  foundLow : regs.find? (lowName base) = some low
  /-- The high half is there. -/
  foundHigh : regs.find? (highName base) = some high
  /-- The high half starts where the low one ends. -/
  touch : low.stop = high.start
  /-- No register has the name. -/
  free : regs.contains base = false

/-- The registers with the halves of a name replaced by one range. -/
def joined (regs : Registers) (base : String) (low high : Register) : Registers :=
  ((regs.erase (lowName base)).erase (highName base)).insert base (low.join high)

/-- Whether one register map becomes the other by joining the halves of one name. -/
def Joins (regs next : Registers) : Prop :=
  ∃ base low high, Joinable regs base low high ∧ next = joined regs base low high

theorem find?_joined (regs : Registers) (base : String) (low high : Register) (a : String) :
    (joined regs base low high).find? a =
      if a = base then some (low.join high)
      else if a = highName base ∨ a = lowName base then none else regs.find? a := by
  rw [joined, find?_insert, find?_erase, find?_erase]
  split_ifs <;> simp_all

/-- A join is what `joinHalves?` does with a name that is not empty. -/
theorem joins_iff : Joins regs next ↔ ∃ base, base ≠ "" ∧ joinHalves? regs base = some next := by
  constructor
  · rintro ⟨base, low, high, joinable, rfl⟩
    exact ⟨base, joinable.named, joinHalves?_eq_some_iff.mpr
      ⟨low, high, joinable.foundLow, joinable.foundHigh, joinable.touch, joinable.free, rfl⟩⟩
  · rintro ⟨base, named, joinedBase⟩
    obtain ⟨low, high, foundLow, foundHigh, touch, free, rfl⟩ :=
      joinHalves?_eq_some_iff.mp joinedBase
    exact ⟨base, low, high, ⟨named, foundLow, foundHigh, touch, free⟩, rfl⟩

/-- What is found in name order is a join. -/
theorem joins_of_consolidateOnce? (found : consolidateOnce? regs = some next) :
    Joins regs next := by
  obtain ⟨name, -, joinedName⟩ := List.exists_of_findSome?_eq_some found
  obtain ⟨base, isLow, joinedBase⟩ := Option.bind_eq_some_iff.mp joinedName
  exact joins_iff.mpr ⟨base, (lowBase?_eq_some_iff.mp isLow).1, joinedBase⟩

/-- If there is a join, one is found in name order. -/
theorem consolidateOnce?_eq_none_iff :
    consolidateOnce? regs = none ↔ ∀ next, ¬ Joins regs next := by
  constructor
  · intro none next joins
    obtain ⟨base, named, joinedBase⟩ := joins_iff.mp joins
    have stored : lowName base ∈ regs.keys := by
      obtain ⟨low, _, foundLow, -⟩ := joinHalves?_eq_some_iff.mp joinedBase
      rw [mem_keys_iff, contains_iff_find?]
      exact ⟨low, foundLow⟩
    have missed := List.findSome?_eq_none_iff.mp none _ stored
    rw [lowBase?_eq_some_iff.mpr ⟨named, rfl⟩, Option.bind_some, joinedBase] at missed
    contradiction
  · intro irreducible
    cases found : consolidateOnce? regs with
    | none => rfl
    | some next => exact absurd (joins_of_consolidateOnce? found) (irreducible next)

/-! ## Two joins -/

/-- A name that a join uses: the name that it stores, or one of the halves. -/
def UsedBy (base name : String) : Prop :=
  name = base ∨ name = highName base ∨ name = lowName base

/-- Two joins have no name in common.  A common name of halves would be one name for both joins, and
the name that one stores is free, so it is no half of the other. -/
theorem Joinable.not_usedBy (joinable : Joinable regs base low high)
    (joinable' : Joinable regs other low' high') (differ : base ≠ other)
    (used : UsedBy base name) : ¬ UsedBy other name := by
  have free := contains_eq_false_iff.mp joinable.free
  have free' := contains_eq_false_iff.mp joinable'.free
  rcases used with rfl | rfl | rfl
  · rintro (equal | rfl | rfl)
    · exact differ equal
    · rw [joinable'.foundHigh] at free
      contradiction
    · rw [joinable'.foundLow] at free
      contradiction
  · rintro (rfl | equal | equal)
    · rw [joinable.foundHigh] at free'
      contradiction
    · exact differ (highName_injective equal)
    · exact lowName_ne_highName other base equal.symm
  · rintro (rfl | equal | equal)
    · rw [joinable.foundLow] at free'
      contradiction
    · exact lowName_ne_highName base other equal
    · exact differ (lowName_injective equal)

theorem find?_joined_of_not_usedBy (unused : ¬ UsedBy base name) :
    (joined regs base low high).find? name = regs.find? name := by
  unfold UsedBy at unused
  rw [not_or] at unused
  rw [find?_joined, if_neg unused.1, if_neg unused.2]

/-- A join stays possible after another one. -/
theorem Joinable.after (joinable : Joinable regs base low high)
    (joinable' : Joinable regs other low' high') (differ : base ≠ other) :
    Joinable (joined regs other low' high') base low high where
  named := joinable.named
  foundLow := by
    rw [find?_joined_of_not_usedBy (joinable.not_usedBy joinable' differ (.inr (.inr rfl)))]
    exact joinable.foundLow
  foundHigh := by
    rw [find?_joined_of_not_usedBy (joinable.not_usedBy joinable' differ (.inr (.inl rfl)))]
    exact joinable.foundHigh
  touch := joinable.touch
  free := by
    rw [contains_eq_false_iff,
      find?_joined_of_not_usedBy (joinable.not_usedBy joinable' differ (.inl rfl))]
    exact contains_eq_false_iff.mp joinable.free

/-- Two joins can be made in either order. -/
theorem joined_comm (joinable : Joinable regs base low high)
    (joinable' : Joinable regs other low' high') (differ : base ≠ other) :
    joined (joined regs base low high) other low' high' =
      joined (joined regs other low' high') base low high := by
  apply ext_find?
  intro name
  by_cases used : UsedBy base name
  · have unused := joinable.not_usedBy joinable' differ used
    rw [find?_joined_of_not_usedBy unused, find?_joined _ base, find?_joined _ base,
      find?_joined_of_not_usedBy unused]
  · rw [find?_joined_of_not_usedBy used, find?_joined _ other, find?_joined _ other,
      find?_joined_of_not_usedBy used]

/-- What two joins lead to is the same, or is one join away from a common result. -/
theorem exists_common_join (joinsFirst : Joins regs first) (joinsSecond : Joins regs second) :
    ∃ common, ReflGen Joins first common ∧ ReflTransGen Joins second common := by
  obtain ⟨base, low, high, joinable, rfl⟩ := joinsFirst
  obtain ⟨other, low', high', joinable', rfl⟩ := joinsSecond
  by_cases same : base = other
  · subst same
    obtain rfl := Option.some.inj (joinable.foundLow.symm.trans joinable'.foundLow)
    obtain rfl := Option.some.inj (joinable.foundHigh.symm.trans joinable'.foundHigh)
    exact ⟨_, .refl, .refl⟩
  · refine ⟨joined (joined regs base low high) other low' high', .single ?_, .single ?_⟩
    · exact ⟨other, low', high', joinable'.after joinable (Ne.symm same), rfl⟩
    · exact ⟨base, low, high, joinable.after joinable' same, joined_comm joinable joinable' same⟩

/-! ## Any number of joins -/

theorem eq_of_irreducible (irreducible : ∀ next, ¬ Joins regs next)
    (reached : ReflTransGen Joins regs last) : last = regs := by
  rcases reached.cases_head with equal | ⟨next, joins, -⟩
  · exact equal.symm
  · exact absurd joins (irreducible next)

/-- At most one result is left when no halves can be joined any more. -/
theorem irreducible_unique (reachedFirst : ReflTransGen Joins regs first)
    (reachedSecond : ReflTransGen Joins regs second)
    (irreducibleFirst : ∀ next, ¬ Joins first next)
    (irreducibleSecond : ∀ next, ¬ Joins second next) : first = second := by
  obtain ⟨common, fromFirst, fromSecond⟩ :=
    church_rosser (fun _ _ _ => exists_common_join) reachedFirst reachedSecond
  exact (eq_of_irreducible irreducibleFirst fromFirst).symm.trans
    (eq_of_irreducible irreducibleSecond fromSecond)

/-- A join leaves one register less. -/
theorem size_of_joins (joins : Joins regs next) : next.size + 1 = regs.size := by
  obtain ⟨base, low, high, joinable, rfl⟩ := joins
  have foundHigh : (regs.erase (lowName base)).find? (highName base) = some high := by
    rw [find?_erase, if_neg (lowName_ne_highName base base).symm, joinable.foundHigh]
  have fresh : ((regs.erase (lowName base)).erase (highName base)).contains base = false := by
    have free := contains_eq_false_iff.mp joinable.free
    rw [contains_eq_false_iff, find?_erase, find?_erase, free, ite_self, ite_self]
  have erasedLow := (entries_perm_erase joinable.foundLow).length_eq
  have erasedHigh := (entries_perm_erase foundHigh).length_eq
  have stored := (entries_insert_perm (low.join high) fresh).length_eq
  rw [List.length_cons] at erasedLow erasedHigh stored
  rw [joined, size, size]
  omega

/-- Halves cannot be joined without end. -/
theorem not_joins_forever (maps : Nat → Registers) : ¬ ∀ n, Joins (maps n) (maps (n + 1)) := by
  intro forever
  have sizes : ∀ n, (maps n).size + n = (maps 0).size := by
    intro n
    induction n with
    | zero => rfl
    | succ n ih =>
        have less := size_of_joins (forever n)
        omega
  have beyond := sizes ((maps 0).size + 1)
  omega

theorem reaches_consolidateUpTo (n : Nat) (regs : Registers) :
    ReflTransGen Joins regs (consolidateUpTo n regs) := by
  induction n generalizing regs with
  | zero => exact .refl
  | succ n ih =>
      unfold consolidateUpTo
      split
      · next next found => exact (ih next).head (joins_of_consolidateOnce? found)
      · exact .refl

theorem reaches_consolidate (regs : Registers) : ReflTransGen Joins regs (consolidate regs) :=
  reaches_consolidateUpTo regs.size regs

/-- As many joins as there are registers are enough. -/
theorem irreducible_consolidateUpTo {n : Nat} (enough : regs.size ≤ n) :
    ∀ next, ¬ Joins (consolidateUpTo n regs) next := by
  induction n generalizing regs with
  | zero =>
      intro next joins
      have less := size_of_joins joins
      change next.size + 1 = regs.size at less
      omega
  | succ n ih =>
      unfold consolidateUpTo
      split
      · next next found =>
          have less := size_of_joins (joins_of_consolidateOnce? found)
          exact ih (by omega)
      · next none => exact consolidateOnce?_eq_none_iff.mp none

theorem irreducible_consolidate (regs : Registers) : ∀ next, ¬ Joins (consolidate regs) next :=
  irreducible_consolidateUpTo (Nat.le_refl regs.size)

/-- Joins keep registers from reaching the last index there is. -/
theorem Fit.joins (fit : regs.Fit) (reached : ReflTransGen Joins regs last) : last.Fit := by
  induction reached with
  | refl => exact fit
  | tail _ joins ih =>
      obtain ⟨base, -, joinedBase⟩ := joins_iff.mp joins
      exact ih.joinHalves? lasting_fits joinedBase

end QuantumCircuit.Registers
