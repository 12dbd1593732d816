import QuantumCircuit.Circuit.Registers
import QuantumCircuit.Circuit.Strip
import QuantumCircuit.Proofs.Registers.Edits

/-!
# What the ranges of a map have in common

A property of ranges that joining two of them and cutting one keep lasts through all edits, as long
as the ranges that come from outside have it.  That is so for ranges that fit, and for those that
moreover are not empty: single indices come and go without leaving an empty range behind.
-/

namespace QuantumCircuit

/-- A range that is not empty and whose end is an index. -/
structure Register.Proper (r : Register) : Prop where
  /-- There is an index in it. -/
  pos : 0 < r.size
  /-- The end does not wrap around. -/
  fits : r.Fits

instance Register.decidableProper (r : Register) : Decidable r.Proper :=
  decidable_of_iff (0 < r.size ∧ r.Fits) ⟨fun ⟨pos, fits⟩ => ⟨pos, fits⟩, fun h => ⟨h.pos, h.fits⟩⟩

/-- Its first index is found. -/
theorem Register.Proper.contains_start {r : Register} (proper : r.Proper) :
    r.contains r.start = true :=
  proper.fits.contains_iff.mpr ⟨Nat.le_refl _, Nat.lt_add_of_pos_right proper.pos⟩

namespace Registers

open SortedMap Register

variable {ok : Register → Prop} {regs rest next : Registers} {name : String} {r : Register}
  {i start n : Nat}

/-! ## All ranges of a map -/

/-- Whether all ranges have a property. -/
def All (ok : Register → Prop) (regs : Registers) : Prop :=
  ∀ ⦃name r⦄, regs.find? name = some r → ok r

/-- A property of all ranges can be checked on the entries. -/
theorem all_of_entries (each : ∀ e ∈ regs.entries, ok e.2) : regs.All ok :=
  fun name r found => each (name, r) (mem_entries_of_find? found)

theorem all_empty : All ok .empty :=
  fun _ _ found => nomatch found

theorem All.insert (all : regs.All ok) (name : String) (new : ok r) :
    All ok (regs.insert name r) := by
  intro other s found
  rw [find?_insert] at found
  split at found
  · obtain rfl := Option.some.inj found
    exact new
  · exact all found

theorem All.erase (all : regs.All ok) (name : String) : All ok (regs.erase name) := by
  intro other s found
  rw [find?_erase] at found
  split at found
  · contradiction
  · exact all found

/-- No range is empty, and none reaches the last index that there is. -/
abbrev Proper (regs : Registers) : Prop :=
  regs.All Register.Proper

/-- No range reaches the last index that there is. -/
abbrev Fit (regs : Registers) : Prop :=
  regs.All Register.Fits

theorem Proper.fit (proper : regs.Proper) : regs.Fit :=
  fun _ _ found => (proper found).fits

/-! ## Properties that last -/

/-- Whether joining and cutting ranges keeps a property of theirs. -/
structure Lasting (ok : Register → Prop) : Prop where
  /-- Two ranges that touch have it together. -/
  join : ∀ {low high : Register}, ok low → ok high → low.stop = high.start → ok (low.join high)
  /-- What is cut out of a range has it, if it is not empty. -/
  within : ∀ {r part : Register}, ok r → part.start + part.size ≤ r.start + r.size →
    0 < part.size → ok part

theorem lasting_true : Lasting fun _ => True where
  join _ _ _ := trivial
  within _ _ _ := trivial

theorem lasting_fits : Lasting Fits where
  join := Fits.join
  within fits within _ := fits.within within

theorem lasting_proper : Lasting Register.Proper where
  join low high touch := by
    refine ⟨?_, low.fits.join high.fits touch⟩
    rw [low.fits.join_eq high.fits touch]
    exact Nat.add_pos_left low.pos _
  within proper within pos := ⟨pos, proper.fits.within within⟩

theorem All.joinHalves? (lasting : Lasting ok) (all : regs.All ok) {base : String}
    (joined : joinHalves? regs base = some next) : next.All ok := by
  obtain ⟨low, high, foundLow, foundHigh, touch, -, rfl⟩ := joinHalves?_eq_some_iff.mp joined
  exact ((all.erase _).erase _).insert base (lasting.join (all foundLow) (all foundHigh) touch)

theorem All.consolidate (lasting : Lasting ok) (all : regs.All ok) :
    (consolidate regs).All ok :=
  consolidate_keeps (All ok) (fun joined before => before.joinHalves? lasting joined) all

theorem Lasting.extend? (lasting : Lasting ok) (old : ok r) (new : ok ⟨i, 1⟩) {grown : Register}
    (extended : extend? r i = some grown) : ok grown := by
  rcases extend?_cases extended with ⟨above, rfl⟩ | ⟨below, rfl⟩
  · exact lasting.join new old above
  · exact lasting.join old new below

/-- Adding an index whose own range has the property. -/
theorem All.add (lasting : Lasting ok) (all : regs.All ok) (new : ok ⟨i, 1⟩) (name : String) :
    (add regs i name).All ok := by
  rcases add_cases regs i name with ⟨-, added⟩ | ⟨key, old, grown, found, extended, added⟩ |
    ⟨-, added⟩
  · rw [added]
    exact all.insert name new
  · rw [added]
    exact (all.insert key (lasting.extend? (all found) new extended)).consolidate lasting
  · rw [added]
    exact all.insert _ new

/-- Removing an index: the ranges that it leaves are cut out of one that was there. -/
theorem All.remove (lasting : Lasting ok) (all : regs.All ok)
    (removed : remove regs name i = .ok rest) : rest.All ok := by
  obtain ⟨r, found, inside, cases⟩ := remove_cases removed
  have old := all found
  have stop : r.stop ≤ r.start + r.size := wrapIndex_le_self _
  rcases cases with ⟨-, rfl⟩ | ⟨several, -, rfl⟩ | ⟨several, -, rfl⟩ | ⟨above, below, rfl⟩
  · exact all.erase name
  · exact all.insert name (lasting.within old (by dsimp only; omega) (Nat.sub_pos_of_lt several))
  · exact all.insert name (lasting.within old (by dsimp only; omega) (Nat.sub_pos_of_lt several))
  · refine ((all.erase name).insert _ ?_).insert _ ?_
    · exact lasting.within old (by dsimp only; omega) (Nat.sub_pos_of_lt above)
    · exact lasting.within old (by dsimp only; omega) (by dsimp only; omega)

/-- New indices at the end, whose range has the property. -/
theorem All.growRegister (lasting : Lasting ok) (all : regs.All ok) (new : ok ⟨start, n⟩)
    (unblocked : Circuit.blocked regs name start = false) :
    (Circuit.growRegister regs name start n).All ok := by
  unfold Circuit.blocked at unblocked
  unfold Circuit.growRegister
  split
  · next r found =>
      rw [found] at unblocked
      have ends : r.stop = start := by simpa using unblocked
      exact all.insert name (lasting.join (all found) new ends)
  · exact all.insert name new

/-- Ranges that are moved down fit as they did. -/
theorem Fit.moveDown (fit : regs.Fit) (p : Nat) :
    Fit (regs.mapValues fun r => if p < r.start then ⟨r.start - 1, r.size⟩ else r) := by
  refine all_of_entries fun e moved => ?_
  obtain ⟨⟨name, r⟩, stored, rfl⟩ := List.mem_map.mp moved
  have fits : r.Fits := fit (find?_of_mem_entries stored)
  dsimp only
  split
  · exact fits.within (by dsimp only; omega)
  · exact fits

theorem Fit.closeRegisters (fit : regs.Fit) (p : Nat) : (Circuit.closeRegisters p regs).Fit :=
  All.consolidate lasting_fits (fit.moveDown p)

end Registers

end QuantumCircuit
