import Mathlib.Logic.Relation
import QuantumCircuit.Circuit.Strip
import QuantumCircuit.Proofs.Registers.Edits

/-!
# Names that come from one another

Edits of registers make up names: the names of halves when a range is split, and numbered names
when a name is taken or an index has no neighbours.  Joining halves goes back to the name they were
made from.  So the names in a map stay connected, through made-up names, with those that were given
from outside, whatever edits are made in whatever order.
-/

namespace QuantumCircuit.Registers

open SortedMap

/-- A name and another one that is made up from it. -/
inductive Derived : String → String → Prop where
  /-- The name of the low half. -/
  | low (base : String) : Derived base (lowName base)
  /-- The name of the high half. -/
  | high (base : String) : Derived base (highName base)
  /-- A numbered name. -/
  | numbered (base : String) (n : Nat) : Derived base (numbered base n)

/-- Two names between which there is a way through made-up names, in either direction. -/
def Kin : String → String → Prop :=
  Relation.EqvGen Derived

variable {given : Set String} {regs next rest : Registers} {name base : String} {i : Nat}

/-! ## Families of names -/

/-- Whether a name is kin to a given one. -/
def InFamily (given : Set String) (name : String) : Prop :=
  ∃ g ∈ given, Kin g name

theorem inFamily_of_mem (member : name ∈ given) : InFamily given name :=
  ⟨name, member, .refl name⟩

/-- A name made up from a name of a family belongs to the family. -/
theorem InFamily.derived (family : InFamily given base) (derived : Derived base name) :
    InFamily given name := by
  obtain ⟨g, member, kin⟩ := family
  exact ⟨g, member, kin.trans _ _ _ (.rel _ _ derived)⟩

/-- So does the name that it is made up from. -/
theorem InFamily.original (family : InFamily given name) (derived : Derived base name) :
    InFamily given base := by
  obtain ⟨g, member, kin⟩ := family
  exact ⟨g, member, kin.trans _ _ _ (.symm _ _ (.rel _ _ derived))⟩

theorem InFamily.freshName (family : InFamily given base) (regs : Registers) :
    InFamily given (freshName regs base) := by
  unfold Registers.freshName
  split
  · exact family.derived (.numbered base _)
  · exact family

/-- The part of a name before its first underscore. -/
def stem (name : String) : List Char :=
  name.toList.takeWhile (· ≠ '_')

/-- What is made up from a name starts with the name and an underscore. -/
theorem Derived.exists_suffix (derived : Derived base name) :
    ∃ suffix, name.toList = base.toList ++ '_' :: suffix := by
  cases derived with
  | low => exact ⟨['l'], by simp [lowName]⟩
  | high => exact ⟨['h'], by simp [highName]⟩
  | numbered n => exact ⟨(toString n).toList, by simp [Registers.numbered]⟩

/-- Kin names have the same stem. -/
theorem Kin.stem_eq (kin : Kin base name) : stem base = stem name := by
  induction kin with
  | rel base name derived =>
      obtain ⟨suffix, equal⟩ := derived.exists_suffix
      rw [stem, stem, equal, List.takeWhile_append]
      split
      · next whole =>
          have same := (List.takeWhile_prefix (· ≠ '_')).eq_of_length whole
          rw [same, List.takeWhile_cons_of_neg (by simp), List.append_nil]
      · rfl
  | refl => rfl
  | symm _ _ _ ih => exact ih.symm
  | trans _ _ _ _ _ first second => exact first.trans second

/-! ## Maps with names of a family -/

/-- Whether the names of all registers belong to a family. -/
def KinTo (given : Set String) (regs : Registers) : Prop :=
  ∀ name, regs.contains name = true → InFamily given name

theorem kinTo_empty (given : Set String) : KinTo given .empty :=
  fun _ stored => nomatch stored

theorem KinTo.insert (kinTo : regs.KinTo given) (family : InFamily given name) (r : Register) :
    KinTo given (regs.insert name r) := by
  intro other stored
  rcases contains_insert.mp stored with rfl | stored
  · exact family
  · exact kinTo other stored

theorem KinTo.erase (kinTo : regs.KinTo given) (name : String) :
    KinTo given (regs.erase name) :=
  fun other stored => kinTo other (contains_erase.mp stored).2

theorem KinTo.inFamily (kinTo : regs.KinTo given) {r : Register}
    (found : regs.find? name = some r) : InFamily given name :=
  kinTo name (contains_iff_find?.mpr ⟨r, found⟩)

theorem KinTo.consolidate (kinTo : regs.KinTo given) : KinTo given (consolidate regs) := by
  refine consolidate_keeps (KinTo given) (fun {regs next base} joined before => ?_) kinTo
  obtain ⟨low, high, foundLow, -, -, -, rfl⟩ := joinHalves?_eq_some_iff.mp joined
  exact ((before.erase _).erase _).insert ((before.inFamily foundLow).original (.low base)) _

/-- Adding an index under a name of the family. -/
theorem KinTo.add (kinTo : regs.KinTo given) (family : InFamily given name) (i : Nat) :
    KinTo given (add regs i name) := by
  rcases add_cases regs i name with ⟨-, added⟩ | ⟨key, old, grown, found, -, added⟩ |
    ⟨-, added⟩
  · rw [added]
    exact kinTo.insert family _
  · rw [added]
    exact (kinTo.insert (kinTo.inFamily found) grown).consolidate
  · rw [added]
    exact kinTo.insert ((family.derived (.numbered name i)).freshName regs) _

theorem KinTo.remove (kinTo : regs.KinTo given) (removed : remove regs name i = .ok rest) :
    KinTo given rest := by
  obtain ⟨r, found, -, ⟨-, rfl⟩ | ⟨-, -, rfl⟩ | ⟨-, -, rfl⟩ | ⟨-, -, rfl⟩⟩ := remove_cases removed
  · exact kinTo.erase name
  · exact kinTo.insert (kinTo.inFamily found) _
  · exact kinTo.insert (kinTo.inFamily found) _
  · have family := kinTo.inFamily found
    exact ((kinTo.erase name).insert ((family.derived (.low name)).freshName _) _).insert
      ((family.derived (.high name)).freshName _) _

/-- Adding indices at the end under a name of the family. -/
theorem KinTo.growRegister (kinTo : regs.KinTo given) (family : InFamily given name)
    (start n : Nat) : KinTo given (Circuit.growRegister regs name start n) := by
  unfold Circuit.growRegister
  split
  · exact kinTo.insert family _
  · exact kinTo.insert family _

theorem KinTo.closeRegisters (kinTo : regs.KinTo given) (p : Nat) :
    KinTo given (Circuit.closeRegisters p regs) := by
  refine KinTo.consolidate fun name stored => kinTo name ?_
  rwa [contains_mapValues] at stored

end QuantumCircuit.Registers
