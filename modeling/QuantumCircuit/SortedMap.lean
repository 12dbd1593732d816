/-!
# Finite maps in key order

A `SortedMap` is a finite map that lists its entries in strictly ascending key order.  The order
is part of the type, so a map has exactly one representation: two maps that answer every look-up
alike are equal (`SortedMap.ext_find?`), and whatever is printed from a map comes out in key order.

Look-up is the view through which the other operations are described: `find?_insertWith`,
`find?_insert`, `find?_insertNew`, `find?_ofList_cons`, `find?_erase` and `find?_filterKeys` say
what each of them does to it.  A set is a map to the unit type.
-/

namespace QuantumCircuit

/-- A finite map, listed by strictly ascending key. -/
structure SortedMap (κ ν : Type) [Ord κ] where
  /-- The entries, by ascending key. -/
  entries : List (κ × ν)
  /-- Keys ascend strictly, so no key occurs twice. -/
  ascending : entries.Pairwise fun a b => compare a.1 b.1 = .lt

/-- A finite set, listed in ascending order. -/
abbrev SortedSet (κ : Type) [Ord κ] := SortedMap κ Unit

namespace SortedMap

variable {κ ν μ : Type} [Ord κ]

/-- Maps with the same entries are equal. -/
theorem ext_entries {m n : SortedMap κ ν} (h : m.entries = n.entries) : m = n := by
  cases m
  cases n
  cases h
  rfl

instance [DecidableEq κ] [DecidableEq ν] : DecidableEq (SortedMap κ ν) := fun m n =>
  decidable_of_iff (m.entries = n.entries) ⟨ext_entries, fun h => h ▸ rfl⟩

/-! ## Look-up -/

/-- The value stored under `k`. -/
def find? (m : SortedMap κ ν) (k : κ) : Option ν :=
  (m.entries.find? fun e => compare k e.1 == .eq).map (·.2)

/-- Whether `k` is a key. -/
def contains (m : SortedMap κ ν) (k : κ) : Bool :=
  (m.find? k).isSome

/-- The keys in ascending order. -/
def keys (m : SortedMap κ ν) : List κ :=
  m.entries.map (·.1)

/-- The values in the order of their keys. -/
def values (m : SortedMap κ ν) : List ν :=
  m.entries.map (·.2)

/-- The number of entries. -/
def size (m : SortedMap κ ν) : Nat :=
  m.entries.length

/-- Whether there is no entry. -/
def isEmpty (m : SortedMap κ ν) : Bool :=
  m.entries.isEmpty

/-- The greatest key. -/
def lastKey? (m : SortedMap κ ν) : Option κ :=
  m.keys.getLast?

/-! ## Construction -/

/-- The map without entries. -/
def empty : SortedMap κ ν :=
  ⟨[], .nil⟩

instance : Inhabited (SortedMap κ ν) :=
  ⟨empty⟩

instance : EmptyCollection (SortedMap κ ν) :=
  ⟨empty⟩

/-- Keeps the entries whose key passes a test. -/
def filterKeys (keep : κ → Bool) (m : SortedMap κ ν) : SortedMap κ ν :=
  ⟨m.entries.filter fun e => keep e.1, m.ascending.filter _⟩

/-- Removes the entry of `k`, if there is one. -/
def erase (m : SortedMap κ ν) (k : κ) : SortedMap κ ν :=
  m.filterKeys fun a => compare k a != .eq

/-- Changes every value and no key. -/
def mapValues (f : ν → μ) (m : SortedMap κ ν) : SortedMap κ μ :=
  ⟨m.entries.map fun e => (e.1, f e.2), m.ascending.map _ fun _ _ h => h⟩

/-- Puts an entry at its place in an ascending list.  If there is an entry with the same key,
`combine` makes one value of the new and the old one. -/
def insertEntry (combine : ν → ν → ν) (k : κ) (v : ν) : List (κ × ν) → List (κ × ν)
  | [] => [(k, v)]
  | e :: rest =>
      match compare k e.1 with
      | .lt => (k, v) :: e :: rest
      | .eq => (k, combine v e.2) :: rest
      | .gt => e :: insertEntry combine k v rest

/-- An entry of an extended list has the new key or is an old one. -/
theorem mem_insertEntry {combine : ν → ν → ν} {k : κ} {v : ν} {e : κ × ν} {l : List (κ × ν)}
    (h : e ∈ insertEntry combine k v l) : e.1 = k ∨ e ∈ l := by
  induction l with
  | nil =>
      have he : e = (k, v) := by simpa [insertEntry] using h
      exact .inl (he ▸ rfl)
  | cons head rest ih =>
      unfold insertEntry at h
      split at h
      · rcases List.mem_cons.mp h with rfl | h
        · exact .inl rfl
        · exact .inr h
      · rcases List.mem_cons.mp h with rfl | h
        · exact .inl rfl
        · exact .inr (List.mem_cons_of_mem _ h)
      · rcases List.mem_cons.mp h with h | h
        · exact .inr (h ▸ List.mem_cons_self)
        · exact (ih h).imp_right (List.mem_cons_of_mem _)

variable [Std.TransOrd κ]

/-- Extending an ascending list keeps it ascending. -/
theorem pairwise_insertEntry (combine : ν → ν → ν) (k : κ) (v : ν) {l : List (κ × ν)}
    (h : l.Pairwise fun a b => compare a.1 b.1 = .lt) :
    (insertEntry combine k v l).Pairwise fun a b => compare a.1 b.1 = .lt := by
  induction l with
  | nil => simp [insertEntry]
  | cons head rest ih =>
      have hrest := (List.pairwise_cons.mp h).1
      have htail := (List.pairwise_cons.mp h).2
      unfold insertEntry
      split
      next hlt =>
        refine List.pairwise_cons.mpr ⟨fun e he => ?_, h⟩
        rcases List.mem_cons.mp he with rfl | he
        · exact hlt
        · exact Std.TransCmp.lt_trans hlt (hrest e he)
      next heq =>
        refine List.pairwise_cons.mpr ⟨fun e he => ?_, htail⟩
        exact Std.TransCmp.lt_of_eq_of_lt heq (hrest e he)
      next hgt =>
        refine List.pairwise_cons.mpr ⟨fun e he => ?_, ih htail⟩
        rcases mem_insertEntry he with he | he
        · exact he ▸ Std.OrientedCmp.gt_iff_lt.mp hgt
        · exact hrest e he

/-- Stores `v` under `k`, or what `combine` makes of it and an earlier value. -/
def insertWith (combine : ν → ν → ν) (m : SortedMap κ ν) (k : κ) (v : ν) : SortedMap κ ν :=
  ⟨insertEntry combine k v m.entries, pairwise_insertEntry combine k v m.ascending⟩

/-- Stores `v` under `k`, in place of an earlier value. -/
def insert (m : SortedMap κ ν) (k : κ) (v : ν) : SortedMap κ ν :=
  m.insertWith (fun new _ => new) k v

/-- Stores `v` under `k` unless there is an earlier value. -/
def insertNew (m : SortedMap κ ν) (k : κ) (v : ν) : SortedMap κ ν :=
  m.insertWith (fun _ old => old) k v

/-- Stores every entry of a list; a later entry for a key replaces an earlier one. -/
def insertAll (m : SortedMap κ ν) (l : List (κ × ν)) : SortedMap κ ν :=
  l.foldl (fun m e => m.insert e.1 e.2) m

/-- The map of a list of entries; a later entry for a key replaces an earlier one.  It is built from
the end of the list, so that an ascending list takes one step for each entry. -/
def ofList (l : List (κ × ν)) : SortedMap κ ν :=
  l.foldr (fun e m => m.insertNew e.1 e.2) empty

/-! ## What the operations do to look-up -/

omit [Std.TransOrd κ] in
@[simp]
theorem find?_empty (k : κ) : (empty : SortedMap κ ν).find? k = none :=
  rfl

omit [Std.TransOrd κ] in
@[simp]
theorem contains_empty (k : κ) : (empty : SortedMap κ ν).contains k = false :=
  rfl

omit [Std.TransOrd κ] in
/-- A value that is found is stored in an entry of that key. -/
theorem mem_entries_of_find? [Std.LawfulEqOrd κ] {m : SortedMap κ ν} {k : κ} {v : ν}
    (h : m.find? k = some v) : (k, v) ∈ m.entries := by
  obtain ⟨e, he, rfl⟩ := Option.map_eq_some_iff.mp h
  have hk : compare k e.1 = .eq := by simpa using List.find?_some he
  rw [Std.LawfulEqCmp.eq_of_compare hk]
  exact List.mem_of_find?_eq_some he

/-- A stored entry is found. -/
theorem find?_of_mem_entries {m : SortedMap κ ν} {k : κ} {v : ν} (h : (k, v) ∈ m.entries) :
    m.find? k = some v := by
  obtain ⟨l, hl⟩ := m
  unfold find?
  simp only at h ⊢
  induction l with
  | nil => simp at h
  | cons head rest ih =>
      have hhead := (List.pairwise_cons.mp hl).1
      rcases List.mem_cons.mp h with rfl | h
      · simp
      · have hlt := hhead _ h
        have hne : compare k head.1 ≠ .eq := fun heq => by
          have := Std.OrientedCmp.eq_symm heq
          rw [this] at hlt
          simp at hlt
        rw [List.find?_cons_of_neg (by simpa using hne)]
        exact ih (List.pairwise_cons.mp hl).2 h

/-- Look-up finds exactly the entries. -/
theorem find?_eq_some_iff [Std.LawfulEqOrd κ] {m : SortedMap κ ν} {k : κ} {v : ν} :
    m.find? k = some v ↔ (k, v) ∈ m.entries :=
  ⟨mem_entries_of_find?, find?_of_mem_entries⟩

/-- What is stored, combined with an earlier value, is found again, and nothing else changes. -/
theorem find?_insertWith [Std.LawfulEqOrd κ] [DecidableEq κ] (combine : ν → ν → ν)
    (m : SortedMap κ ν) (k a : κ) (v : ν) :
    (m.insertWith combine k v).find? a =
      if a = k then some (((m.find? k).map (combine v)).getD v) else m.find? a := by
  obtain ⟨l, hl⟩ := m
  unfold find? insertWith
  simp only
  induction l with
  | nil =>
      by_cases h : a = k
      · simp [insertEntry, h]
      · have : compare a k ≠ .eq := fun c => h (Std.LawfulEqCmp.eq_of_compare c)
        simp [insertEntry, h, this]
  | cons head rest ih =>
      have hrest := (List.pairwise_cons.mp hl).1
      unfold insertEntry
      split
      next hlt =>
        by_cases h : a = k
        · have habsent : rest.find? (fun e => compare k e.1 == .eq) = none := by
            rw [List.find?_eq_none]
            intro e he
            have := Std.TransCmp.lt_trans hlt (hrest e he)
            simp [this]
          simp [h, hlt, habsent]
        · have : compare a k ≠ .eq := fun c => h (Std.LawfulEqCmp.eq_of_compare c)
          simp [h, this]
      next heq =>
        have hk := Std.LawfulEqCmp.eq_of_compare heq
        by_cases h : a = k
        · simp [h, hk]
        · have : compare a k ≠ .eq := fun c => h (Std.LawfulEqCmp.eq_of_compare c)
          have hne : a ≠ head.1 := fun c => h (c.trans hk.symm)
          simp [h, hne, this]
      next hgt =>
        by_cases hhead : compare a head.1 = .eq
        · have ha := Std.LawfulEqCmp.eq_of_compare hhead
          have h : a ≠ k := fun hk => by
            rw [← hk, hhead] at hgt
            simp at hgt
          simp [hhead, h]
        · simpa [List.find?_cons, hhead, hgt] using ih (List.pairwise_cons.mp hl).2

/-- What is stored is found again, and nothing else changes. -/
theorem find?_insert [Std.LawfulEqOrd κ] [DecidableEq κ] (m : SortedMap κ ν) (k a : κ) (v : ν) :
    (m.insert k v).find? a = if a = k then some v else m.find? a := by
  rw [insert, find?_insertWith]
  cases m.find? k <;> rfl

/-- An earlier value is found again, and otherwise the one that is stored. -/
theorem find?_insertNew [Std.LawfulEqOrd κ] [DecidableEq κ] (m : SortedMap κ ν) (k a : κ)
    (v : ν) :
    (m.insertNew k v).find? a = if a = k then some ((m.find? k).getD v) else m.find? a := by
  rw [insertNew, find?_insertWith]
  cases m.find? k <;> rfl

/-- The first entry of a list counts where no later one does. -/
theorem find?_ofList_cons [Std.LawfulEqOrd κ] [DecidableEq κ] (e : κ × ν) (l : List (κ × ν))
    (a : κ) :
    (ofList (e :: l)).find? a =
      ((ofList l).find? a).or (if a = e.1 then some e.2 else none) := by
  change ((ofList l).insertNew e.1 e.2).find? a = _
  rw [find?_insertNew]
  by_cases h : a = e.1
  · rw [if_pos h, if_pos h, h]
    cases (ofList l).find? e.1 <;> rfl
  · rw [if_neg h, if_neg h, Option.or_none]

/-- Filtering keeps exactly the entries whose key passes. -/
theorem find?_filterKeys [Std.LawfulEqOrd κ] (m : SortedMap κ ν) (keep : κ → Bool) (a : κ) :
    (m.filterKeys keep).find? a = if keep a then m.find? a else none := by
  apply Option.ext
  intro v
  by_cases h : keep a
  · rw [if_pos h, find?_eq_some_iff, find?_eq_some_iff]
    simp [filterKeys, h]
  · rw [if_neg h]
    constructor
    · intro hv
      have := find?_eq_some_iff.mp hv
      simp [filterKeys, h] at this
    · intro hv
      simp at hv

/-- Erasing a key makes its look-up fail and no other. -/
theorem find?_erase [Std.LawfulEqOrd κ] [DecidableEq κ] (m : SortedMap κ ν) (k a : κ) :
    (m.erase k).find? a = if a = k then none else m.find? a := by
  unfold erase
  rw [find?_filterKeys]
  by_cases h : a = k
  · simp [h]
  · have : compare k a ≠ .eq := fun c => h (Std.LawfulEqCmp.eq_of_compare c).symm
    simp [h, this]

/-- The keys are the arguments at which look-up succeeds. -/
theorem mem_keys_iff [Std.LawfulEqOrd κ] {m : SortedMap κ ν} {k : κ} :
    k ∈ m.keys ↔ m.contains k = true := by
  unfold keys contains
  rw [Option.isSome_iff_exists, List.mem_map]
  constructor
  · rintro ⟨e, he, rfl⟩
    exact ⟨e.2, find?_of_mem_entries he⟩
  · rintro ⟨v, hv⟩
    exact ⟨(k, v), mem_entries_of_find? hv, rfl⟩

/-- Two ascending lists with the same members are equal. -/
theorem eq_of_mem_iff {l₁ l₂ : List (κ × ν)}
    (h₁ : l₁.Pairwise fun a b => compare a.1 b.1 = .lt)
    (h₂ : l₂.Pairwise fun a b => compare a.1 b.1 = .lt)
    (h : ∀ e, e ∈ l₁ ↔ e ∈ l₂) : l₁ = l₂ := by
  induction l₁ generalizing l₂ with
  | nil =>
      cases l₂ with
      | nil => rfl
      | cons e rest => exact absurd ((h e).mpr List.mem_cons_self) List.not_mem_nil
  | cons a rest₁ ih =>
      cases l₂ with
      | nil => exact absurd ((h a).mp List.mem_cons_self) List.not_mem_nil
      | cons b rest₂ =>
          have ha := (List.pairwise_cons.mp h₁).1
          have hb := (List.pairwise_cons.mp h₂).1
          have irrefl : ∀ x : κ, compare x x ≠ .lt := fun x => by simp
          have hab : a = b := by
            rcases List.mem_cons.mp ((h a).mp List.mem_cons_self) with hab | hab
            · exact hab
            · rcases List.mem_cons.mp ((h b).mpr List.mem_cons_self) with hba | hba
              · exact hba.symm
              · exact absurd (Std.TransCmp.lt_trans (ha b hba) (hb a hab)) (irrefl _)
          subst hab
          congr 1
          refine ih (List.pairwise_cons.mp h₁).2 (List.pairwise_cons.mp h₂).2 fun e => ?_
          constructor
          · intro he
            rcases List.mem_cons.mp ((h e).mp (List.mem_cons_of_mem _ he)) with rfl | he'
            · exact absurd (ha _ he) (irrefl _)
            · exact he'
          · intro he
            rcases List.mem_cons.mp ((h e).mpr (List.mem_cons_of_mem _ he)) with rfl | he'
            · exact absurd (hb _ he) (irrefl _)
            · exact he'

/-- Maps that answer every look-up alike are equal. -/
theorem ext_find? [Std.LawfulEqOrd κ] {m n : SortedMap κ ν} (h : ∀ k, m.find? k = n.find? k) :
    m = n := by
  refine ext_entries (eq_of_mem_iff m.ascending n.ascending fun e => ?_)
  rw [← find?_eq_some_iff (m := m), ← find?_eq_some_iff (m := n), h]

end SortedMap

/-! ## Sets -/

namespace SortedSet

variable {κ : Type} [Ord κ] [Std.TransOrd κ]

/-- Adds a member. -/
def insert (s : SortedSet κ) (k : κ) : SortedSet κ :=
  SortedMap.insert s k ()

/-- The set of the members of a list. -/
def ofList (l : List κ) : SortedSet κ :=
  l.foldr (fun k s => s.insert k) SortedMap.empty

/-- The set of the members of both sets. -/
def union (s t : SortedSet κ) : SortedSet κ :=
  t.keys.foldl insert s

end SortedSet

end QuantumCircuit
