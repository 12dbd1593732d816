import Mathlib.Data.ZMod.Basic
import Mathlib.Tactic.SplitIfs
import QuantumCircuit.Proofs.Registers.Ranges

/-!
# Additive weights of registers

A weight of ranges is additive if the weight of an interval is the sum of those of its parts, and if
that is so also for two ranges that touch when their sizes are added as indices.  For each index, the
number of times it is covered is an additive weight of ranges that fit, and the size, up to multiples
of the number of indices, is one of all ranges.

The operations on registers move boundaries between ranges and rename them, so they change the total
of an additive weight by exactly the weight of the index that they add or remove, and joining halves
changes it not at all.
-/

namespace QuantumCircuit

namespace Register

theorem toNat_contains (r : Register) (i : Nat) :
    (r.contains i).toNat = if r.start ≤ i ∧ i < r.stop then 1 else 0 := by
  split
  · next inside => rw [contains_iff.mpr inside, Bool.toNat_true]
  · next outside =>
      rw [Bool.eq_false_iff.mpr fun inside => outside (contains_iff.mp inside), Bool.toNat_false]

theorem Fits.toNat_contains {r : Register} (fits : r.Fits) (i : Nat) :
    (r.contains i).toNat = if r.start ≤ i ∧ i < r.start + r.size then 1 else 0 := by
  rw [Register.toNat_contains, fits.stop_eq]

end Register

namespace Registers

open SortedMap Register

variable {M : Type} [AddCancelCommMonoid M]

/-! ## Additive weights -/

/-- A weight that can be computed part by part, for ranges with a property. -/
structure Additive (ok : Register → Prop) (weight : Register → M) : Prop where
  /-- Sizes count up to multiples of the number of indices. -/
  wrap : ∀ start {m n}, wrapIndex m = wrapIndex n → weight ⟨start, m⟩ = weight ⟨start, n⟩
  /-- An interval of indices weighs as much as its parts. -/
  add : ∀ start m n, start + (m + n) ≤ maxIndex →
    weight ⟨start, m + n⟩ = weight ⟨start, m⟩ + weight ⟨start + m, n⟩
  /-- So do two ranges that touch. -/
  join : ∀ {low high : Register}, ok low → ok high → low.stop = high.start →
    weight (low.join high) = weight low + weight high

/-- Counting an index where it is covered is additive. -/
theorem additive_contains (i : Nat) : Additive Register.Fits fun r => (r.contains i).toNat := by
  have interval : ∀ start m n, start + (m + n) ≤ maxIndex →
      ((⟨start, m + n⟩ : Register).contains i).toNat =
        ((⟨start, m⟩ : Register).contains i).toNat +
          ((⟨start + m, n⟩ : Register).contains i).toNat := by
    intro start m n small
    have whole : (⟨start, m + n⟩ : Register).Fits := small
    have first : (⟨start, m⟩ : Register).Fits := whole.within (by dsimp only; omega)
    have second : (⟨start + m, n⟩ : Register).Fits := whole.within (by dsimp only; omega)
    rw [toNat_contains, toNat_contains, toNat_contains, whole.stop_eq, first.stop_eq,
      second.stop_eq]
    dsimp only
    split_ifs <;> omega
  refine ⟨fun start m n same => ?_, interval, fun {low high} fitsLow fitsHigh touch => ?_⟩
  · have stop : (⟨start, m⟩ : Register).stop = (⟨start, n⟩ : Register).stop :=
      Nat.ModEq.add_left start same
    rw [toNat_contains, toNat_contains, stop]
  · have fits := fitsLow.join fitsHigh touch
    rw [fitsLow.join_eq fitsHigh touch] at fits ⊢
    rw [fitsLow.stop_eq] at touch
    rw [interval _ _ _ fits, touch]

/-- The size of a range, up to multiples of the number of indices. -/
def residue (r : Register) : ZMod (maxIndex + 1) :=
  r.size

theorem natCast_eq_iff {m n : Nat} :
    (m : ZMod (maxIndex + 1)) = n ↔ wrapIndex m = wrapIndex n :=
  ZMod.natCast_eq_natCast_iff' m n _

theorem natCast_wrapIndex (n : Nat) : (wrapIndex n : ZMod (maxIndex + 1)) = n :=
  ZMod.natCast_mod n _

/-- The size is additive, whether or not ranges fit. -/
theorem additive_residue : Additive (fun _ => True) residue where
  wrap _ := natCast_eq_iff.mpr
  add _ m n _ := Nat.cast_add m n
  join _ _ _ := (natCast_wrapIndex _).trans (Nat.cast_add _ _)

variable {ok : Register → Prop} {weight : Register → M}

theorem Additive.zero (additive : Additive ok weight) {start : Nat} (small : start ≤ maxIndex) :
    weight ⟨start, 0⟩ = 0 :=
  left_eq_add.mp (additive.add start 0 0 small)

/-- The size of a range is the distance of its ends, up to multiples of the number of indices. -/
theorem size_modEq {r : Register} (ordered : r.start ≤ r.stop) :
    r.size ≡ r.stop - r.start [MOD maxIndex + 1] := by
  have ends : r.start + r.size ≡ r.start + (r.stop - r.start) [MOD maxIndex + 1] := by
    rw [Nat.add_sub_cancel' ordered]
    exact (Nat.mod_modEq _ _).symm
  exact Nat.ModEq.add_left_cancel' r.start ends

/-- A range weighs as much as the interval up to its end. -/
theorem Additive.interval (additive : Additive ok weight) {r : Register}
    (ordered : r.start ≤ r.stop) : weight r = weight ⟨r.start, r.stop - r.start⟩ :=
  additive.wrap r.start (size_modEq ordered)

/-- So it does when both are one shorter. -/
theorem Additive.shorter (additive : Additive ok weight) {r : Register} {i : Nat}
    (inside : r.contains i = true) (start : Nat) :
    weight ⟨start, r.size - 1⟩ = weight ⟨start, r.stop - r.start - 1⟩ := by
  obtain ⟨low, high⟩ := contains_iff.mp inside
  have bound := lt_of_contains inside
  have longer : r.size - 1 + 1 ≡ r.stop - r.start - 1 + 1 [MOD maxIndex + 1] := by
    rw [Nat.sub_add_cancel (by omega), Nat.sub_add_cancel (by omega)]
    exact size_modEq (by omega)
  exact additive.wrap start (Nat.ModEq.add_right_cancel' 1 longer)

/-- A range consists of what lies before an index, the index, and what lies behind it. -/
theorem Additive.split (additive : Additive ok weight) {r : Register} {i : Nat}
    (inside : r.contains i = true) :
    weight r = weight ⟨r.start, i - r.start⟩ + weight ⟨i, 1⟩ + weight ⟨i + 1, r.stop - i - 1⟩ := by
  obtain ⟨low, high⟩ := contains_iff.mp inside
  have small : r.stop ≤ maxIndex := wrapIndex_le _
  have whole : r.stop - r.start = i - r.start + (1 + (r.stop - i - 1)) := by omega
  have middle : r.start + (i - r.start) = i := by omega
  calc
    weight r = weight ⟨r.start, i - r.start + (1 + (r.stop - i - 1))⟩ := by
      rw [additive.interval (by omega), whole]
    _ = weight ⟨r.start, i - r.start⟩ + weight ⟨i, 1 + (r.stop - i - 1)⟩ := by
      rw [additive.add _ _ _ (by omega), middle]
    _ = _ := by rw [additive.add i 1 _ (by omega), add_assoc]

/-! ## Joining halves -/

variable {regs rest next : Registers} {name base : String} {i start n : Nat}

/-- Joining two halves that touch puts one weight in place of two, whatever it is. -/
theorem exists_sumOf_joinHalves? (weight : Register → M)
    (joined : joinHalves? regs base = some next) : ∃ low high,
      regs.find? (lowName base) = some low ∧ regs.find? (highName base) = some high ∧
      low.stop = high.start ∧
      next.sumOf weight + (weight low + weight high) =
        regs.sumOf weight + weight (low.join high) := by
  obtain ⟨low, high, foundLow, foundHigh, touch, free, rfl⟩ := joinHalves?_eq_some_iff.mp joined
  have foundHigh' : (regs.erase (lowName base)).find? (highName base) = some high := by
    rw [find?_erase, if_neg (lowName_ne_highName base base).symm, foundHigh]
  have fresh : ((regs.erase (lowName base)).erase (highName base)).contains base = false := by
    rw [contains_eq_false_iff] at free ⊢
    rw [find?_erase, find?_erase, free, ite_self, ite_self]
  refine ⟨low, high, foundLow, foundHigh, touch, ?_⟩
  rw [sumOf_insert weight _ fresh, ← sumOf_erase weight foundLow, ← sumOf_erase weight foundHigh']
  simp only [add_assoc, add_comm, add_left_comm]

/-- Joining two halves keeps the total. -/
theorem sumOf_joinHalves? (additive : Additive ok weight) (all : regs.All ok)
    (joined : joinHalves? regs base = some next) : next.sumOf weight = regs.sumOf weight := by
  obtain ⟨low, high, foundLow, foundHigh, touch, same⟩ := exists_sumOf_joinHalves? weight joined
  rw [additive.join (all foundLow) (all foundHigh) touch] at same
  exact add_right_cancel same

/-- Joining halves until none can be joined keeps the total. -/
theorem sumOf_consolidate (lasting : Lasting ok) (additive : Additive ok weight)
    (all : regs.All ok) : (consolidate regs).sumOf weight = regs.sumOf weight := by
  refine (consolidate_keeps (fun next => next.All ok ∧ next.sumOf weight = regs.sumOf weight)
    (fun joined before => ?_) ⟨all, rfl⟩).2
  exact ⟨before.1.joinHalves? lasting joined,
    (sumOf_joinHalves? additive before.1 joined).trans before.2⟩

/-! ## Single indices -/

theorem weight_extend? (additive : Additive ok weight) {r grown : Register} (old : ok r)
    (new : ok ⟨i, 1⟩) (extended : extend? r i = some grown) :
    weight grown = weight r + weight ⟨i, 1⟩ := by
  rcases extend?_cases extended with ⟨above, rfl⟩ | ⟨below, rfl⟩
  · rw [additive.join new old above, add_comm]
  · exact additive.join old new below

/-- Adding an index adds its weight. -/
theorem sumOf_add (lasting : Lasting ok) (additive : Additive ok weight) (all : regs.All ok)
    (new : ok ⟨i, 1⟩) (name : String) :
    (add regs i name).sumOf weight = regs.sumOf weight + weight ⟨i, 1⟩ := by
  rcases add_cases regs i name with ⟨rfl, added⟩ |
    ⟨key, old, grown, found, extended, added⟩ | ⟨-, added⟩
  · rw [added, sumOf_insert weight _ (contains_empty name)]
  · have grownOk := lasting.extend? (all found) new extended
    rw [added, sumOf_consolidate lasting additive (all.insert key grownOk), sumOf_insert_erase,
      weight_extend? additive (all found) new extended, ← sumOf_erase weight found, add_assoc]
  · rw [added, sumOf_insert weight _ (contains_freshName regs _)]

/-- Removing an index takes its weight away. -/
theorem sumOf_remove (additive : Additive ok weight) (removed : remove regs name i = .ok rest) :
    rest.sumOf weight + weight ⟨i, 1⟩ = regs.sumOf weight := by
  obtain ⟨r, found, inside, cases⟩ := remove_cases removed
  have bound := lt_of_contains inside
  have small := lt_maxIndex_of_contains inside
  obtain ⟨low, high⟩ := contains_iff.mp inside
  have parts := additive.split inside
  rw [← sumOf_erase weight found]
  rcases cases with ⟨single, rfl⟩ | ⟨_, first, rfl⟩ | ⟨_, last, rfl⟩ | ⟨_, _, rfl⟩
  · have whole : r = ⟨i, 1⟩ := by
      cases r
      simp only [Register.mk.injEq] at *
      omega
    rw [← whole]
  · subst first
    rw [Nat.sub_self, additive.zero small.le, zero_add] at parts
    rw [sumOf_insert_erase, additive.shorter inside, parts, add_assoc, add_comm (weight ⟨_, 1⟩),
      Nat.sub_right_comm]
  · have behind : r.stop - i - 1 = 0 := by omega
    have before : r.stop - r.start - 1 = i - r.start := by omega
    rw [behind, additive.zero small, add_zero] at parts
    rw [sumOf_insert_erase, additive.shorter inside, before, parts, add_assoc]
  · rw [sumOf_insert weight _ (contains_freshName _ _),
      sumOf_insert weight _ (contains_freshName _ _), parts]
    simp only [add_assoc, add_comm, add_left_comm]

/-! ## Ranges at the end -/

/-- New indices at the end add the weight of their range. -/
theorem sumOf_growRegister (additive : Additive ok weight) (all : regs.All ok)
    (new : ok ⟨start, n⟩) (unblocked : Circuit.blocked regs name start = false) :
    (Circuit.growRegister regs name start n).sumOf weight =
      regs.sumOf weight + weight ⟨start, n⟩ := by
  unfold Circuit.blocked at unblocked
  unfold Circuit.growRegister
  split
  · next r found =>
      rw [found] at unblocked
      have ends : r.stop = start := by simpa using unblocked
      have grown := additive.join (all found) new ends
      rw [sumOf_insert_erase, ← sumOf_erase weight found, add_assoc, ← grown]
      rfl
  · next missing => exact sumOf_insert weight _ (contains_eq_false_iff.mpr missing)

end Registers

end QuantumCircuit
