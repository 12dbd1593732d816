import Mathlib.Data.List.Basic
import QuantumCircuit.Proofs.Registers.Disjoint

/-!
# Labels of indices

A label is made of a register name and a position, and both can be read off again.  In one map of
registers an index is found by its label, because a name stands for one register.
-/

namespace QuantumCircuit.Registers

open SortedMap

variable {regs : Registers} {i offset : Nat} {name : String}

/-! ## Reading labels -/

/-- A list is cut at the last place where a character stands. -/
theorem append_cons_inj_last {α : Type} {stop : α} {front front' back back' : List α}
    (free : stop ∉ back) (free' : stop ∉ back')
    (same : front ++ stop :: back = front' ++ stop :: back') : front = front' ∧ back = back' := by
  rcases List.append_eq_append_iff.mp same with ⟨middle, rfl, rest⟩ | ⟨middle, rfl, rest⟩
  · rcases List.cons_eq_append_iff.mp rest with ⟨rfl, equal⟩ | ⟨later, -, rfl⟩
    · exact ⟨(List.append_nil _).symm, (List.cons.inj equal).2.symm⟩
    · exact absurd (List.mem_append_right later List.mem_cons_self) free
  · rcases List.cons_eq_append_iff.mp rest with ⟨rfl, equal⟩ | ⟨later, -, rfl⟩
    · exact ⟨List.append_nil _, (List.cons.inj equal).2⟩
    · exact absurd (List.mem_append_right later List.mem_cons_self) free'

theorem toList_label (name : String) (offset : Nat) :
    (label name offset).toList = name.toList ++ '[' :: (Nat.toDigits 10 offset ++ [']']) := by
  simp [label]

theorem bracket_not_mem_toDigits (offset : Nat) : '[' ∉ Nat.toDigits 10 offset ++ [']'] := by
  intro member
  rcases List.mem_append.mp member with digit | last
  · exact absurd (Nat.isDigit_of_mem_toDigits (by decide) (by decide) digit) (by decide)
  · exact absurd last (by decide)

/-- Labels tell names and positions apart, also if names contain brackets. -/
theorem label_inj {other : String} {offset' : Nat} :
    label name offset = label other offset' ↔ name = other ∧ offset = offset' := by
  constructor
  · intro same
    have chars := congrArg String.toList same
    rw [toList_label, toList_label] at chars
    obtain ⟨names, positions⟩ := append_cons_inj_last (bracket_not_mem_toDigits offset)
      (bracket_not_mem_toDigits offset') chars
    exact ⟨String.toList_injective names, toDigits_injective (List.append_cancel_right positions)⟩
  · rintro ⟨rfl, rfl⟩
    rfl

/-! ## Where labels come from -/

/-- Whether a name and a position in its register stand for an index. -/
def Places (regs : Registers) (name : String) (offset i : Nat) : Prop :=
  ∃ r, regs.find? name = some r ∧ r.contains i = true ∧ i = r.start + offset

theorem Places.unique {j : Nat} (first : regs.Places name offset i)
    (second : regs.Places name offset j) : i = j := by
  obtain ⟨r, found, -, rfl⟩ := first
  obtain ⟨s, found', -, rfl⟩ := second
  rw [Option.some.inj (found.symm.trans found')]

/-- The label of an index is made of a name and a position that stand for it. -/
theorem places_of_names {v : String × String} (named : (names regs).find? i = some v) :
    ∃ offset, regs.Places v.1 offset i ∧ v.2 = label v.1 offset := by
  have member := mem_of_find?_ofList named
  obtain ⟨⟨name, r⟩, stored, listed⟩ := List.mem_flatMap.mp member
  obtain ⟨j, inside, equal⟩ := List.mem_map.mp listed
  obtain ⟨rfl, rfl⟩ := Prod.mk.inj equal
  have contained : r.contains j = true := Register.mem_indices.mp inside
  have above := (Register.contains_iff.mp contained).1
  have entry := List.mem_mergeSort.mp stored
  exact ⟨j - r.start, ⟨r, find?_of_mem_entries entry, contained, by omega⟩, rfl⟩

theorem Places.covers (places : regs.Places name offset i) : covers regs i = true := by
  obtain ⟨r, found, inside, -⟩ := places
  exact covers_iff.mpr (coverCount_ne_zero_iff.mpr ⟨name, r, found, inside⟩)

theorem names_eq_none (free : Registers.covers regs i = false) : (names regs).find? i = none := by
  cases named : (names regs).find? i with
  | none => rfl
  | some v =>
      obtain ⟨offset, places, -⟩ := places_of_names named
      rw [places.covers] at free
      contradiction

/-- Every index that is covered has a label. -/
theorem exists_names (covered : covers regs i = true) : ∃ v, (names regs).find? i = some v := by
  obtain ⟨_, value, inside⟩ := List.any_eq_true.mp covered
  obtain ⟨⟨name, r⟩, stored, rfl⟩ := List.mem_map.mp value
  rw [← contains_iff_find?, names, contains_ofList, List.map_flatMap]
  refine List.mem_flatMap.mpr ⟨(name, r), List.mem_mergeSort.mpr stored, ?_⟩
  simpa [Function.comp_def] using inside

/-- Where no two registers share an index, it has only one place. -/
theorem Places.determined {other : String} {offset' : Nat} (apart : regs.Apart)
    (first : regs.Places name offset i) (second : regs.Places other offset' i) :
    other = name ∧ offset' = offset := by
  obtain ⟨r, found, inside, position⟩ := first
  obtain ⟨s, found', inside', position'⟩ := second
  obtain rfl : other = name := by
    by_contra differ
    have outside := apart found found' (Ne.symm differ) i inside
    rw [inside'] at outside
    contradiction
  obtain rfl := Option.some.inj (found.symm.trans found')
  exact ⟨rfl, Nat.add_left_cancel (position'.symm.trans position)⟩

/-- Where no two registers share an index, its only place gives the label. -/
theorem names_of_places (apart : regs.Apart) (places : regs.Places name offset i) :
    (names regs).find? i = some (name, label name offset) := by
  obtain ⟨⟨other, text⟩, named⟩ := exists_names places.covers
  obtain ⟨offset', places', equal⟩ := places_of_names named
  obtain ⟨rfl, rfl⟩ := places.determined apart places'
  rw [named]
  exact congrArg (fun text => some (other, text)) equal

/-! ## The table and the search -/

/-- The entry of the table of labels for a place. -/
def tableEntry (place : String × Nat) : String × String :=
  (place.1, label place.1 place.2)

/-- The place that is found for an index stands for it. -/
theorem places_of_locate? (located : locate? regs i = some (name, offset)) :
    regs.Places name offset i := by
  obtain ⟨r, found, inside, rfl⟩ := find?_of_locate? located
  have above := (Register.contains_iff.mp inside).1
  exact ⟨r, found, inside, by omega⟩

/-- The search in name order and the table, which is filled in the order of starts, agree on every
index if no two registers share one. -/
theorem find?_names (apart : regs.Apart) (i : Nat) :
    (names regs).find? i = (locate? regs i).map tableEntry := by
  cases located : locate? regs i with
  | none => exact names_eq_none (covers_eq_false_iff.mpr (locate?_eq_none_iff.mp located))
  | some place => exact names_of_places apart (places_of_locate? located)

/-- The indices of registers that are apart are different, in whichever order they are listed. -/
theorem nodup_flatMap_indices (apart : regs.Apart) :
    ((sorted regs).flatMap fun e => e.2.indices).Nodup := by
  have stored : ∀ {e}, e ∈ sorted regs → regs.find? e.1 = some e.2 :=
    fun mem => find?_of_mem_entries (List.mem_mergeSort.mp mem)
  have distinct : (sorted regs).Nodup := (List.mergeSort_perm _ _).nodup_iff.mpr regs.nodup_entries
  refine List.nodup_flatMap.mpr ⟨fun e _ => List.nodup_range' 1, ?_⟩
  refine distinct.imp_of_mem fun {e f} memE memF differ => ?_
  intro j insideE insideF
  have other : e.1 ≠ f.1 := by
    intro same
    have values := stored memE
    rw [same, stored memF] at values
    exact differ (Prod.ext same (Option.some.inj values).symm)
  have outside := apart (stored memE) (stored memF) other j (Register.mem_indices.mp insideE)
  rw [Register.mem_indices.mp insideF] at outside
  contradiction

/-- If no two registers share an index, and none reaches the last one there is, the table has as
many entries as there are indices. -/
theorem size_names (fit : regs.Fit) (apart : regs.Apart) :
    (names regs).size = totalSize regs := by
  have keys : (((sorted regs).flatMap fun e => e.2.indices.map fun i =>
      (i, e.1, label e.1 (i - e.2.start))).map Prod.fst) =
      (sorted regs).flatMap fun e => e.2.indices := by
    simp [List.map_flatMap, Function.comp_def]
  have lengths : ∀ e ∈ sorted regs, e.2.indices.length = e.2.size := by
    intro e stored
    have fits : e.2.Fits := fit (find?_of_mem_entries (List.mem_mergeSort.mp stored))
    rw [Register.indices, List.length_range', fits.stop_eq, Nat.add_sub_cancel_left]
  have sizes : ((sorted regs).map fun e => e.2.size).sum = regs.sumOf Register.size := by
    rw [sumOf, values, List.map_map]
    exact ((List.mergeSort_perm _ _).map _).sum_eq
  rw [names, size_ofList (keys ▸ nodup_flatMap_indices apart), ← List.length_map Prod.fst, keys,
    List.length_flatMap, List.map_congr_left lengths, sizes,
    totalSize_eq_sumOf fit (apart_iff.mp apart)]

end QuantumCircuit.Registers
