import Mathlib.Algebra.BigOperators.Group.List.Basic
import Mathlib.Algebra.GroupWithZero.Nat
import Mathlib.Data.List.Perm.Basic
import Mathlib.Data.List.Nodup
import QuantumCircuit.SortedMap

/-!
# Contents of sorted maps

What the operations on sorted maps do to the entries as a whole: a new entry is one more entry, an
erased one is one less, and a list without repeated keys is stored completely.  From this follow
the laws of `sumOf`, the sum of a weight over the values of a map, which counts registers and the
indices they cover alike.
-/

namespace QuantumCircuit

namespace SortedMap

variable {κ ν μ : Type} [Ord κ] [Std.TransOrd κ]

/-! ## Keys and entries -/

theorem nodup_entries (m : SortedMap κ ν) : m.entries.Nodup := by
  refine m.ascending.imp fun {first second} ascends equal => ?_
  subst equal
  simp at ascends

theorem nodup_keys (m : SortedMap κ ν) : m.keys.Nodup := by
  refine List.pairwise_map.mpr (m.ascending.imp fun {first second} ascends equal => ?_)
  rw [equal] at ascends
  simp at ascends

omit [Std.TransOrd κ] in
theorem contains_iff_find? {m : SortedMap κ ν} {k : κ} :
    m.contains k = true ↔ ∃ v, m.find? k = some v :=
  Option.isSome_iff_exists

omit [Std.TransOrd κ] in
theorem contains_eq_false_iff {m : SortedMap κ ν} {k : κ} :
    m.contains k = false ↔ m.find? k = none := by
  rw [contains, Option.isSome_eq_false_iff, Option.isNone_iff_eq_none]

variable [Std.LawfulEqOrd κ] [DecidableEq κ]

theorem contains_insert {m : SortedMap κ ν} {k a : κ} {v : ν} :
    (m.insert k v).contains a = true ↔ a = k ∨ m.contains a = true := by
  rw [contains, find?_insert]
  by_cases equal : a = k
  · simp [equal]
  · simp [equal, contains]

omit [DecidableEq κ] in
theorem contains_mapValues {m : SortedMap κ ν} {f : ν → μ} {k : κ} :
    (m.mapValues f).contains k = m.contains k := by
  rw [Bool.eq_iff_iff, ← mem_keys_iff, ← mem_keys_iff]
  simp [keys, mapValues, Function.comp_def]

theorem contains_erase {m : SortedMap κ ν} {k a : κ} :
    (m.erase k).contains a = true ↔ a ≠ k ∧ m.contains a = true := by
  rw [contains, find?_erase]
  by_cases equal : a = k
  · simp [equal]
  · simp [equal, contains]

/-- Storing in place of an earlier value is storing anew. -/
theorem insert_eq_insert_erase (m : SortedMap κ ν) (k : κ) (v : ν) :
    m.insert k v = (m.erase k).insert k v := by
  apply ext_find?
  intro a
  rw [find?_insert, find?_insert, find?_erase]
  split <;> rfl

/-- Erasing a key that is not there changes nothing. -/
theorem erase_of_absent {m : SortedMap κ ν} {k : κ} (absent : m.find? k = none) :
    m.erase k = m := by
  apply ext_find?
  intro a
  rw [find?_erase]
  split_ifs with same
  · rw [same, absent]
  · rfl

/-- What was stored under a new key can be erased. -/
theorem erase_insert {m : SortedMap κ ν} {k : κ} (v : ν) (absent : m.find? k = none) :
    (m.insert k v).erase k = m := by
  apply ext_find?
  intro a
  rw [find?_erase, find?_insert]
  split_ifs with same
  · rw [same, absent]
  · rfl

/-- What was erased can be stored again. -/
theorem insert_erase {m : SortedMap κ ν} {k : κ} {v : ν} (stored : m.find? k = some v) :
    (m.erase k).insert k v = m := by
  apply ext_find?
  intro a
  rw [find?_insert, find?_erase]
  split_ifs with same
  · rw [same, stored]
  · rfl

omit [DecidableEq κ] in
/-- The entries of a map are those of a list without repeats that gives the same answers. -/
theorem entries_perm_of_find? {m : SortedMap κ ν} {l : List (κ × ν)} (nodup : l.Nodup)
    (same : ∀ k v, m.find? k = some v ↔ (k, v) ∈ l) : m.entries.Perm l := by
  apply (List.perm_ext_iff_of_nodup m.nodup_entries nodup).mpr
  rintro ⟨k, v⟩
  rw [← find?_eq_some_iff, same]

/-- Storing under a new key gives one more entry. -/
theorem entries_insert_perm {m : SortedMap κ ν} {k : κ} (v : ν) (fresh : m.contains k = false) :
    (m.insert k v).entries.Perm ((k, v) :: m.entries) := by
  have missing := contains_eq_false_iff.mp fresh
  have notMem : (k, v) ∉ m.entries := by
    rw [← find?_eq_some_iff, missing]
    simp
  refine entries_perm_of_find? (m.nodup_entries.cons notMem) fun a w => ?_
  rw [List.mem_cons, ← find?_eq_some_iff, find?_insert]
  by_cases equal : a = k
  · subst equal
    simp [missing, eq_comm]
  · simp [equal]

/-- Erasing a key leaves one entry less. -/
theorem entries_perm_erase {m : SortedMap κ ν} {k : κ} {v : ν} (stored : m.find? k = some v) :
    m.entries.Perm ((k, v) :: (m.erase k).entries) := by
  have notMem : (k, v) ∉ (m.erase k).entries := by
    rw [← find?_eq_some_iff, find?_erase]
    simp
  refine entries_perm_of_find? ((nodup_entries _).cons notMem) fun a w => ?_
  rw [List.mem_cons, ← find?_eq_some_iff, find?_erase]
  by_cases equal : a = k
  · subst equal
    simp [stored, eq_comm]
  · simp [equal]

/-- A list in which no key is repeated is stored as it is. -/
theorem find?_ofList_eq_some_iff {l : List (κ × ν)} (distinct : (l.map Prod.fst).Nodup) {k : κ}
    {v : ν} : (ofList l).find? k = some v ↔ (k, v) ∈ l := by
  induction l generalizing v with
  | nil => simp [ofList]
  | cons head rest ih =>
      rcases List.nodup_cons.mp distinct with ⟨notMem, distinctRest⟩
      rw [find?_ofList_cons, List.mem_cons, Option.or_eq_some_iff, ih distinctRest]
      constructor
      · rintro (stored | ⟨_, isHead⟩)
        · exact .inr stored
        · split at isHead
          · next equal => exact .inl (Prod.ext equal (Option.some.inj isHead).symm)
          · contradiction
      · rintro (rfl | stored)
        · refine .inr ⟨?_, if_pos rfl⟩
          rw [Option.eq_none_iff_forall_ne_some]
          intro w found
          have stored : (k, w) ∈ rest := (ih distinctRest).mp found
          exact notMem (List.mem_map.mpr ⟨(k, w), stored, rfl⟩)
        · exact .inl stored

/-- A list in which no key is repeated is stored with all its entries. -/
theorem size_ofList {l : List (κ × ν)} (distinct : (l.map Prod.fst).Nodup) :
    (ofList l).size = l.length :=
  (entries_perm_of_find? distinct.of_map fun _ _ => find?_ofList_eq_some_iff distinct).length_eq

/-- What a map of a list stores comes from the list. -/
theorem mem_of_find?_ofList {l : List (κ × ν)} {k : κ} {v : ν}
    (stored : (ofList l).find? k = some v) : (k, v) ∈ l := by
  induction l generalizing v with
  | nil => simp [ofList] at stored
  | cons head rest ih =>
      rw [find?_ofList_cons, Option.or_eq_some_iff] at stored
      rcases stored with later | ⟨_, isHead⟩
      · exact List.mem_cons_of_mem _ (ih later)
      · split at isHead
        · next equal =>
            obtain rfl := Option.some.inj isHead
            rw [equal]
            exact List.mem_cons_self
        · contradiction

/-- The keys of a map of a list are those of the list. -/
theorem contains_ofList {l : List (κ × ν)} {k : κ} :
    (ofList l).contains k = true ↔ k ∈ l.map Prod.fst := by
  induction l with
  | nil => simp [ofList]
  | cons head rest ih =>
      rw [contains, find?_ofList_cons, Option.isSome_or, Bool.or_eq_true, List.map_cons,
        List.mem_cons, ← ih, or_comm]
      by_cases equal : k = head.1
      · simp [equal]
      · simp [equal, contains]

/-- Storing one value under many keys. -/
theorem find?_insertAll_const (m : SortedMap κ ν) (l : List κ) (v : ν) (k : κ) :
    (m.insertAll (l.map fun a => (a, v))).find? k = if k ∈ l then some v else m.find? k := by
  induction l generalizing m with
  | nil => simp [insertAll]
  | cons head rest ih =>
      have step : m.insertAll ((head :: rest).map fun a => (a, v)) =
          (m.insert head v).insertAll (rest.map fun a => (a, v)) := rfl
      rw [step, ih, find?_insert]
      by_cases later : k ∈ rest
      · simp [later]
      · simp [later]

/-- Storing the entries of a list, the last one for each key. -/
theorem find?_insertAll (m : SortedMap κ ν) (l : List (κ × ν)) (k : κ) :
    (m.insertAll l).find? k = ((ofList l).find? k).or (m.find? k) := by
  induction l generalizing m with
  | nil => rfl
  | cons head rest ih =>
      have step : m.insertAll (head :: rest) = (m.insert head.1 head.2).insertAll rest := rfl
      rw [step, ih, find?_ofList_cons, find?_insert, Option.or_assoc]
      congr 1
      split <;> rfl

/-- A map is the map of its entries. -/
theorem ofList_entries (m : SortedMap κ ν) : ofList m.entries = m := by
  refine ext_find? fun k => Option.ext fun v => ?_
  rw [find?_ofList_eq_some_iff m.nodup_keys, find?_eq_some_iff]

/-- Storing a map in another one that has none of its keys adds all its entries. -/
theorem size_insertAll_entries {m n : SortedMap κ ν}
    (apart : ∀ k, m.contains k = true → n.find? k = none) :
    (m.insertAll n.entries).size = m.size + n.size := by
  have nodup : (m.entries ++ n.entries).Nodup := by
    refine List.nodup_append.mpr ⟨m.nodup_entries, n.nodup_entries, ?_⟩
    rintro e stored _ stored' rfl
    have missing := apart e.1 (contains_iff_find?.mpr ⟨e.2, find?_of_mem_entries stored⟩)
    rw [find?_of_mem_entries stored'] at missing
    contradiction
  have perm : (m.insertAll n.entries).entries.Perm (m.entries ++ n.entries) := by
    refine entries_perm_of_find? nodup fun k v => ?_
    rw [find?_insertAll, ofList_entries, Option.or_eq_some_iff, List.mem_append,
      ← find?_eq_some_iff, ← find?_eq_some_iff]
    constructor
    · rintro (new | ⟨-, old⟩)
      · exact .inr new
      · exact .inl old
    · rintro (old | new)
      · exact .inr ⟨apart k (contains_iff_find?.mpr ⟨v, old⟩), old⟩
      · exact .inl new
  rw [size, perm.length_eq, List.length_append]
  rfl

/-- Entries with different keys may be listed either way round. -/
theorem ofList_swap {e f : κ × ν} (other : e.1 ≠ f.1) (l : List (κ × ν)) :
    ofList (e :: f :: l) = ofList (f :: e :: l) := by
  apply ext_find?
  intro a
  rw [find?_ofList_cons, find?_ofList_cons, find?_ofList_cons, find?_ofList_cons, Option.or_assoc,
    Option.or_assoc]
  congr 1
  by_cases isFirst : a = e.1
  · have notSecond : a ≠ f.1 := isFirst ▸ other
    rw [if_pos isFirst, if_neg notSecond, Option.none_or, Option.or_none]
  · rw [if_neg isFirst, Option.none_or, Option.or_none]

omit [DecidableEq κ] in
/-- A new key is put between the smaller and the greater ones. -/
theorem exists_insertEntry (combine : ν → ν → ν) {k : κ} (v : ν) {l : List (κ × ν)}
    (fresh : ∀ e ∈ l, e.1 ≠ k) : ∃ pre post, l = pre ++ post ∧
      insertEntry combine k v l = pre ++ (k, v) :: post ∧ ∀ e ∈ pre, compare e.1 k = .lt := by
  induction l with
  | nil => exact ⟨[], [], rfl, rfl, by simp⟩
  | cons head rest ih =>
      unfold insertEntry
      split
      · exact ⟨[], head :: rest, rfl, rfl, by simp⟩
      · next equal =>
          exact absurd (Std.compare_eq_iff_eq.mp equal).symm (fresh head List.mem_cons_self)
      · next greater =>
          obtain ⟨pre, post, rfl, inserted, smaller⟩ :=
            ih fun e mem => fresh e (List.mem_cons_of_mem _ mem)
          refine ⟨head :: pre, post, rfl, by rw [inserted, List.cons_append], fun e mem => ?_⟩
          rcases List.mem_cons.mp mem with rfl | later
          · exact Std.OrientedCmp.gt_iff_lt.mp greater
          · exact smaller e later

/-! ## Keys that are numbers -/

section NumberedKeys

omit [Std.TransOrd κ] [Std.LawfulEqOrd κ] [DecidableEq κ]

theorem pairwise_keys_lt (m : SortedMap Nat ν) : m.keys.Pairwise (· < ·) :=
  List.pairwise_map.mpr (m.ascending.imp Nat.compare_eq_lt.mp)

/-- The last key is the greatest. -/
theorem lastKey?_spec {m : SortedMap Nat ν} {k : Nat} (last : m.lastKey? = some k) :
    k ∈ m.keys ∧ ∀ a ∈ m.keys, a ≤ k := by
  rcases List.getLast?_eq_some_iff.mp last with ⟨smaller, keys⟩
  have ascends := m.pairwise_keys_lt
  rw [keys, List.pairwise_append] at ascends
  rw [keys]
  refine ⟨List.mem_append_right _ List.mem_cons_self, fun a mem => ?_⟩
  rcases List.mem_append.mp mem with before | isLast
  · exact Nat.le_of_lt (ascends.2.2 a before k List.mem_cons_self)
  · exact Nat.le_of_eq (List.mem_singleton.mp isLast)

end NumberedKeys

/-! ## Sums over the values -/

section Sums

variable {M : Type} [AddCommMonoid M]

omit [Std.TransOrd κ] [Std.LawfulEqOrd κ] [DecidableEq κ]

/-- The sum of a weight over the values. -/
def sumOf (weight : ν → M) (m : SortedMap κ ν) : M :=
  (m.values.map weight).sum

theorem sumOf_mapValues (weight : μ → M) (f : ν → μ) (m : SortedMap κ ν) :
    (m.mapValues f).sumOf weight = m.sumOf fun v => weight (f v) := by
  simp [sumOf, values, mapValues, Function.comp_def]

theorem sumOf_congr {m : SortedMap κ ν} {weight weight' : ν → M}
    (agree : ∀ v ∈ m.values, weight v = weight' v) : m.sumOf weight = m.sumOf weight' := by
  rw [sumOf, sumOf, List.map_congr_left agree]

theorem sumOf_eq_zero_iff {m : SortedMap κ ν} {weight : ν → Nat} :
    m.sumOf weight = 0 ↔ ∀ v ∈ m.values, weight v = 0 := by
  rw [sumOf, List.sum_eq_zero_iff_forall_eq_nat, List.forall_mem_map]

variable [Std.TransOrd κ] [Std.LawfulEqOrd κ] [DecidableEq κ]

theorem sumOf_insert {m : SortedMap κ ν} {k : κ} (weight : ν → M) (v : ν)
    (fresh : m.contains k = false) :
    (m.insert k v).sumOf weight = m.sumOf weight + weight v := by
  have perm := ((entries_insert_perm v fresh).map Prod.snd).map weight
  rw [sumOf, values, perm.sum_eq, List.map_cons, List.map_cons, List.sum_cons, add_comm]
  rfl

theorem sumOf_erase {m : SortedMap κ ν} {k : κ} {v : ν} (weight : ν → M)
    (stored : m.find? k = some v) :
    (m.erase k).sumOf weight + weight v = m.sumOf weight := by
  have perm := ((entries_perm_erase stored).map Prod.snd).map weight
  have total : m.sumOf weight = weight v + (m.erase k).sumOf weight := by
    rw [sumOf, values, perm.sum_eq, List.map_cons, List.map_cons, List.sum_cons]
    rfl
  rw [total, add_comm]

/-- Storing in place of an earlier value is storing without it. -/
theorem sumOf_insert_erase (m : SortedMap κ ν) (k : κ) (weight : ν → M) (v : ν) :
    (m.insert k v).sumOf weight = (m.erase k).sumOf weight + weight v := by
  have erased : (m.erase k).contains k = false := by
    rw [contains_eq_false_iff, find?_erase, if_pos rfl]
  rw [insert_eq_insert_erase, sumOf_insert weight v erased]

end Sums

end SortedMap

/-! ## Sets -/

namespace SortedSet

variable {κ : Type} [Ord κ] [Std.TransOrd κ] [Std.LawfulEqOrd κ] [DecidableEq κ]

theorem contains_ofList {l : List κ} {k : κ} :
    (SortedSet.ofList l).contains k = true ↔ k ∈ l := by
  induction l with
  | nil => simp [SortedSet.ofList]
  | cons head rest ih =>
      have step : SortedSet.ofList (head :: rest) = SortedSet.insert (SortedSet.ofList rest) head :=
        rfl
      rw [step, SortedSet.insert, SortedMap.contains_insert, ih, List.mem_cons]

/-- The members of the set of a list are those of the list. -/
@[simp]
theorem mem_keys_ofList {l : List κ} {k : κ} : k ∈ (SortedSet.ofList l).keys ↔ k ∈ l := by
  rw [SortedMap.mem_keys_iff, contains_ofList]

/-- The set of a list in which nothing is repeated has as many members. -/
theorem size_ofList {l : List κ} (nodup : l.Nodup) : (SortedSet.ofList l).size = l.length := by
  have perm : (SortedSet.ofList l).keys.Perm l :=
    (List.perm_ext_iff_of_nodup (SortedMap.nodup_keys _) nodup).mpr fun _ => mem_keys_ofList
  rw [← perm.length_eq, SortedMap.keys, List.length_map]
  rfl

/-- Inserting the members of a list one by one adds these. -/
theorem mem_keys_foldl_insert {l : List κ} {s : SortedSet κ} {k : κ} :
    k ∈ (l.foldl SortedSet.insert s).keys ↔ k ∈ s.keys ∨ k ∈ l := by
  simp only [SortedMap.mem_keys_iff]
  induction l generalizing s with
  | nil => simp
  | cons head rest ih =>
      rw [List.foldl_cons, ih, SortedSet.insert, SortedMap.contains_insert, List.mem_cons]
      tauto

/-- The members of a union are those of either set. -/
@[simp]
theorem mem_keys_union {s t : SortedSet κ} {k : κ} :
    k ∈ (SortedSet.union s t).keys ↔ k ∈ s.keys ∨ k ∈ t.keys := by
  rw [SortedSet.union, mem_keys_foldl_insert]

omit [DecidableEq κ] in
/-- Sets with the same members are equal. -/
theorem ext_keys {s t : SortedSet κ} (same : ∀ k, k ∈ s.keys ↔ k ∈ t.keys) : s = t := by
  apply SortedMap.ext_find?
  intro k
  apply Option.ext
  rintro ⟨⟩
  have agree := same k
  rw [SortedMap.mem_keys_iff, SortedMap.mem_keys_iff, SortedMap.contains_iff_find?,
    SortedMap.contains_iff_find?] at agree
  constructor
  · intro found
    rcases agree.mp ⟨_, found⟩ with ⟨_, found⟩
    exact found
  · intro found
    rcases agree.mpr ⟨_, found⟩ with ⟨_, found⟩
    exact found

end SortedSet

end QuantumCircuit
