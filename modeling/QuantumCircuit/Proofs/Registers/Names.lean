import Mathlib.Data.List.Perm.Subperm
import QuantumCircuit.Proofs.Digits
import QuantumCircuit.Proofs.Loops
import QuantumCircuit.Proofs.SortedMap
import QuantumCircuit.Registers.Edit

/-!
# Names that registers are given

Numbering a base gives infinitely many names, of which the registers of a map take up only
finitely many.  One more candidate than there are registers is therefore enough, and the name that
`freshName` chooses is free.  The names of halves tell which half they are of, and of which name.
-/

namespace QuantumCircuit.Registers

/-- Numbers tell the names of one base apart. -/
theorem numbered_injective (base : String) : Function.Injective (numbered base) := by
  intro m n equal
  have texts : toString m = toString n := (String.append_right_inj _).mp equal
  rw [Nat.toString_eq_ofList_toDigits, Nat.toString_eq_ofList_toDigits, String.ofList_inj] at texts
  exact toDigits_injective texts

/-- A numbered name is longer than its base. -/
theorem numbered_ne_base (base : String) (n : Nat) : numbered base n ≠ base := by
  intro equal
  have lengths := congrArg String.length equal
  rw [numbered, String.length_append, String.length_append] at lengths
  have mark : "_".length = 1 := rfl
  omega

/-- Names that are taken are at most as many as the registers. -/
theorem length_le_size {regs : Registers} {names : List String} (distinct : names.Nodup)
    (taken : ∀ name ∈ names, regs.contains name = true) : names.length ≤ regs.size := by
  have keys : names ⊆ regs.keys := fun name mem => SortedMap.mem_keys_iff.mpr (taken name mem)
  have bound := (distinct.subperm keys).length_le
  rwa [SortedMap.keys, List.length_map] at bound

/-- One of the candidates is free. -/
theorem exists_numbered_free (regs : Registers) (base : String) :
    ∃ n ∈ List.range' 1 (regs.size + 1), regs.contains (numbered base n) = false := by
  by_contra noneFree
  have taken : ∀ name ∈ (List.range' 1 (regs.size + 1)).map (numbered base),
      regs.contains name = true := by
    intro name mem
    rcases List.mem_map.mp mem with ⟨n, candidate, rfl⟩
    by_contra free
    exact noneFree ⟨n, candidate, Bool.eq_false_iff.mpr free⟩
  have bound := length_le_size ((List.nodup_range' 1).map (numbered_injective base)) taken
  rw [List.length_map, List.length_range'] at bound
  exact absurd bound (Nat.not_succ_le_self _)

/-- The number that is chosen for a base that is taken is the least one that makes it free. -/
theorem exists_freshName_eq {regs : Registers} {base : String}
    (taken : regs.contains base = true) : ∃ n, 0 < n ∧ freshName regs base = numbered base n ∧
      regs.contains (numbered base n) = false ∧
      ∀ m, 0 < m → m < n → regs.contains (numbered base m) = true := by
  obtain ⟨candidate, listed, free⟩ := exists_numbered_free regs base
  cases found : (List.range' 1 (regs.size + 1)).find? fun n =>
      !regs.contains (numbered base n) with
  | none =>
      have skipped := List.find?_eq_none.mp found candidate listed
      simp [free] at skipped
  | some n =>
      obtain ⟨passes, mem, least⟩ := List.find?_range'_eq_some.mp found
      refine ⟨n, (List.mem_range'_1.mp mem).1, ?_, by simpa using passes, fun m above below => ?_⟩
      · rw [freshName, if_pos taken, found]
        rfl
      · simpa using least m above below

/-- The name that is chosen is free. -/
@[simp]
theorem contains_freshName (regs : Registers) (base : String) :
    regs.contains (freshName regs base) = false := by
  cases taken : regs.contains base with
  | true =>
      obtain ⟨n, -, chosen, free, -⟩ := exists_freshName_eq taken
      rw [chosen, free]
  | false =>
      rw [freshName, taken]
      exact taken

/-- A name that is free is chosen as it is. -/
theorem freshName_of_free {regs : Registers} {base : String} (free : regs.contains base = false) :
    freshName regs base = base := by
  rw [freshName, free]
  rfl

/-- If the base and the numbers from one up to `n` are taken, there are more than `n` registers. -/
theorem lt_size_of_taken {regs : Registers} {base : String} {n : Nat}
    (taken : regs.contains base = true)
    (before : ∀ m, 0 < m → m ≤ n → regs.contains (numbered base m) = true) : n < regs.size := by
  let candidates := (List.range' 1 n).map (numbered base)
  have other : base ∉ candidates := by
    intro mem
    obtain ⟨m, -, equal⟩ := List.mem_map.mp mem
    exact numbered_ne_base base m equal
  have distinct : (base :: candidates).Nodup :=
    List.nodup_cons.mpr ⟨other, (List.nodup_range' 1).map (numbered_injective base)⟩
  have allTaken : ∀ name ∈ base :: candidates, regs.contains name = true := by
    refine List.forall_mem_cons.mpr ⟨taken, List.forall_mem_map.mpr fun m mem => ?_⟩
    obtain ⟨positive, below⟩ := List.mem_range'_1.mp mem
    exact before m positive (by omega)
  have bound := length_le_size distinct allTaken
  rwa [List.length_cons, List.length_map, List.length_range'] at bound

/-- The name that is chosen is free.  It is the base itself if that is free.  Otherwise the search
that tries one number after the other, and has no bound of its own, ends after fewer rounds than
there are registers, at the least positive number that makes the base free, and this is the number
that is chosen. -/
theorem freshName_least (regs : Registers) (base : String) :
    regs.contains (freshName regs base) = false ∧
    (regs.contains base = false → freshName regs base = base) ∧
    (regs.contains base = true → ∃ n rounds, rounds < regs.size ∧
      EndsAfter (fun n => regs.contains (numbered base n)) (· + 1) rounds 1 n ∧
      freshName regs base = numbered base n ∧ 0 < n ∧
      regs.contains (numbered base n) = false ∧
      ∀ m, 0 < m → m < n → regs.contains (numbered base m) = true) := by
  refine ⟨contains_freshName regs base, freshName_of_free, fun taken => ?_⟩
  obtain ⟨n, positive, chosen, free, least⟩ := exists_freshName_eq taken
  obtain ⟨rounds, rfl⟩ : ∃ rounds, n = 1 + rounds := ⟨n - 1, by omega⟩
  refine ⟨1 + rounds, rounds, ?_, ?_, chosen, positive, free, least⟩
  · exact lt_size_of_taken taken fun m above upTo => least m above (by omega)
  · exact EndsAfter.of_count least free

/-- Some of the numbered names are taken, with a gap. -/
theorem freshName_least_gap :
    let regs := SortedMap.ofList
      [("q", (⟨0, 2⟩ : Register)), ("q_5", ⟨7, 1⟩), ("q_5_1", ⟨8, 1⟩), ("q_5_3", ⟨9, 1⟩)]
    (regs.contains "q_6" = false ∧ freshName regs "q_6" = "q_6") ∧
    regs.contains "q_5" = true ∧ ∃ n rounds, rounds < regs.size ∧
      EndsAfter (fun n => regs.contains (numbered "q_5" n)) (· + 1) rounds 1 n ∧
      freshName regs "q_5" = numbered "q_5" n ∧ n = 2 := by
  intro regs
  have free : regs.contains "q_6" = false := by decide +kernel
  have taken : regs.contains "q_5" = true := by decide +kernel
  obtain ⟨-, kept, -⟩ := freshName_least regs "q_6"
  obtain ⟨-, -, numbers⟩ := freshName_least regs "q_5"
  obtain ⟨n, rounds, bound, ends, chosen, -⟩ := numbers taken
  have second : freshName regs "q_5" = numbered "q_5" 2 := by decide +kernel
  exact ⟨⟨free, kept free⟩, taken, n, rounds, bound, ends, chosen,
    numbered_injective "q_5" (chosen.symm.trans second)⟩

/-! ## The names of halves -/

theorem lowName_injective : Function.Injective lowName :=
  fun _ _ equal => (String.append_left_inj _).mp equal

theorem highName_injective : Function.Injective highName :=
  fun _ _ equal => (String.append_left_inj _).mp equal

/-- No name is both a low and a high half. -/
theorem lowName_ne_highName (base other : String) : lowName base ≠ highName other := by
  intro equal
  have ends := congrArg (fun name : String => name.toList.getLast?) equal
  simp [lowName, highName] at ends

/-- The name of which a name is the low half. -/
theorem lowBase?_eq_some_iff {name base : String} :
    lowBase? name = some base ↔ base ≠ "" ∧ name = lowName base := by
  have reversed : (lowName base).toList.reverse = 'l' :: '_' :: base.toList.reverse := by
    simp [lowName]
  constructor
  · intro found
    unfold lowBase? at found
    split at found
    · next c rest chars =>
        obtain rfl := Option.some.inj found
        refine ⟨fun empty => ?_, String.toList_injective (List.reverse_injective ?_)⟩
        · have none := congrArg String.toList empty
          simp at none
        · rw [chars, reversed, String.toList_ofList, List.reverse_reverse]
    · contradiction
  · rintro ⟨named, rfl⟩
    unfold lowBase?
    rw [reversed]
    cases chars : base.toList.reverse with
    | nil => exact absurd (String.toList_eq_nil_iff.mp (List.reverse_eq_nil_iff.mp chars)) named
    | cons c rest =>
        have whole : (c :: rest).reverse = base.toList := by rw [← chars, List.reverse_reverse]
        change some (String.ofList (c :: rest).reverse) = some base
        rw [whole, String.ofList_toList]

end QuantumCircuit.Registers
