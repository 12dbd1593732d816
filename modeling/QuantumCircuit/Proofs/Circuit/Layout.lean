import Mathlib.Data.Fintype.EquivFin
import Mathlib.Data.List.Nodup
import QuantumCircuit.Circuit.Layout
import QuantumCircuit.Proofs.Registers.Cover

/-!
# Layouts as bijections

As long as no index is left out, the initial layout is a bijection of the indices below the number
of qubits.  New qubits extend it by the identity, and closing up the indices of a removed qubit
makes a bijection of one index less: look-up after `closeLayout` is look-up before, with the gap
opened on the physical side and closed on the logical one.
-/

namespace QuantumCircuit

open SortedMap

/-- A layout that is a bijection of the indices below a bound. -/
structure Layout.Bijective (layout : Layout) (n : Nat) : Prop where
  /-- The physical indices are those below the bound. -/
  contains_iff : ∀ p, layout.contains p = true ↔ p < n
  /-- The logical indices lie below the bound. -/
  value_lt : ∀ {p l}, layout.find? p = some l → l < n
  /-- No logical index is held twice. -/
  injective : ∀ {p q l}, layout.find? p = some l → layout.find? q = some l → p = q
  /-- Every logical index is held. -/
  surjective : ∀ {l}, l < n → ∃ p, layout.find? p = some l

namespace Layout

variable {layout : Layout} {n : Nat}

/-- Below a bound, holding no logical index twice is holding every one. -/
theorem Bijective.of_injective (contains_iff : ∀ p, layout.contains p = true ↔ p < n)
    (value_lt : ∀ {p l}, layout.find? p = some l → l < n)
    (injective : ∀ {p q l}, layout.find? p = some l → layout.find? q = some l → p = q) :
    Layout.Bijective layout n := by
  refine ⟨contains_iff, value_lt, injective, fun {l} below => ?_⟩
  have held : ∀ p : Fin n, ∃ l : Fin n, layout.find? p = some l.val := by
    intro p
    rcases contains_iff_find?.mp ((contains_iff p).mpr p.isLt) with ⟨l, found⟩
    exact ⟨⟨l, value_lt found⟩, found⟩
  choose value found using held
  have valueInjective : Function.Injective value := by
    intro p q equal
    have foundQ := found q
    rw [← equal] at foundQ
    exact Fin.ext (injective (found p) foundQ)
  rcases Finite.surjective_of_injective valueInjective ⟨l, below⟩ with ⟨p, hits⟩
  refine ⟨p, ?_⟩
  rw [found p, hits]

theorem Bijective.lt (bijective : Layout.Bijective layout n) {p l : Nat}
    (held : layout.find? p = some l) : p < n :=
  (bijective.contains_iff p).mp (contains_iff_find?.mpr ⟨l, held⟩)

theorem Bijective.exists_value (bijective : Layout.Bijective layout n) {p : Nat} (below : p < n) :
    ∃ l, layout.find? p = some l :=
  contains_iff_find?.mp ((bijective.contains_iff p).mpr below)

theorem bijective_empty : Layout.Bijective .empty 0 :=
  .of_injective (by simp) (by simp) (by simp)

end Layout

namespace Circuit

variable {S : Type}

/-! ## New qubits -/

/-- New qubits hold the logical qubits of their own indices. -/
theorem find?_extendLayout (layout : Layout) (start n q : Nat) :
    (extendLayout layout start n).find? q =
      if start ≤ q ∧ q < start + n then some q else layout.find? q := by
  have fold : ∀ l : List Nat, (l.foldr (fun q layout => layout.insert q q) layout).find? q =
      if q ∈ l then some q else layout.find? q := by
    intro l
    induction l with
    | nil => rfl
    | cons head rest ih =>
        rw [List.foldr_cons, find?_insert, ih]
        by_cases equal : q = head
        · simp [equal]
        · simp [equal]
  rw [extendLayout, fold]
  simp only [List.mem_range'_1]

theorem contains_extendLayout (layout : Layout) (start n q : Nat) :
    (extendLayout layout start n).contains q = true ↔
      (start ≤ q ∧ q < start + n) ∨ layout.contains q = true := by
  rw [contains, find?_extendLayout]
  split_ifs with new
  · simp [new]
  · simp [new, contains]

theorem Layout.Bijective.extend {layout : Layout} {n : Nat} (bijective : layout.Bijective n)
    (k : Nat) : Layout.Bijective (extendLayout layout n k) (n + k) := by
  have old : ∀ {p l}, layout.find? p = some l → p < n := bijective.lt
  refine .of_injective (fun p => ?_) (fun {p l} found => ?_) (fun {p q l} foundP foundQ => ?_)
  · rw [contains_extendLayout, bijective.contains_iff]
    omega
  · rw [find?_extendLayout] at found
    split at found
    · next new =>
        obtain rfl := Option.some.inj found
        exact new.2
    · exact Nat.lt_add_right k (bijective.value_lt found)
  · rw [find?_extendLayout] at foundP foundQ
    split at foundP
    · next newP =>
        obtain rfl := Option.some.inj foundP
        split at foundQ
        · exact (Option.some.inj foundQ).symm
        · exact absurd (bijective.value_lt foundQ) (Nat.not_lt.mpr newP.1)
    · split at foundQ
      · next newQ =>
          obtain rfl := Option.some.inj foundQ
          exact absurd (bijective.value_lt foundP) (Nat.not_lt.mpr newQ.1)
      · exact bijective.injective foundP foundQ

/-! ## Removed qubits -/

/-- Closing up a layout without the removed qubit: every index moves down if it lies above the gap,
and nothing else changes. -/
theorem find?_closeLayout {layout : Layout} {logical physical : Nat}
    (absent : layout.find? physical = none) (q : Nat) :
    (closeLayout logical physical layout).find? q =
      (layout.find? (openGap physical q)).map (closeGap logical) := by
  have other : ∀ {p l}, (p, l) ∈ layout.entries → p ≠ physical := by
    intro p l stored equal
    rw [← find?_eq_some_iff, equal, absent] at stored
    contradiction
  have distinct : ((layout.entries.map fun e =>
      (closeGap physical e.1, closeGap logical e.2)).map Prod.fst).Nodup := by
    rw [List.map_map]
    change (layout.entries.map fun e => closeGap physical e.1).Nodup
    refine List.Nodup.map_on ?_ layout.nodup_entries
    rintro ⟨p, l⟩ storedP ⟨p', l'⟩ storedQ equal
    have samePhysical : p = p' := by
      rw [← openGap_closeGap (other storedP), ← openGap_closeGap (other storedQ), equal]
    subst samePhysical
    rw [← find?_eq_some_iff] at storedP storedQ
    rw [storedP] at storedQ
    rw [Option.some.inj storedQ]
  apply Option.ext
  intro l
  rw [closeLayout, find?_ofList_eq_some_iff distinct, List.mem_map, Option.map_eq_some_iff]
  constructor
  · rintro ⟨⟨p, l'⟩, stored, equal⟩
    rcases Prod.mk.inj equal with ⟨rfl, rfl⟩
    refine ⟨l', ?_, rfl⟩
    rw [openGap_closeGap (other stored), find?_eq_some_iff]
    exact stored
  · rintro ⟨l', found, rfl⟩
    refine ⟨(openGap physical q, l'), find?_eq_some_iff.mp found, ?_⟩
    rw [closeGap_openGap]

/-- Removing a qubit and closing up renumbers what the other qubits hold. -/
theorem find?_closeLayout_erase (layout : Layout) (logical physical q : Nat) :
    (closeLayout logical physical (layout.erase physical)).find? q =
      (layout.find? (openGap physical q)).map (closeGap logical) := by
  have absent : (layout.erase physical).find? physical = none := by
    rw [find?_erase, if_pos rfl]
  rw [find?_closeLayout absent, find?_erase, if_neg (openGap_ne physical q)]

/-- Closing up behind a removed qubit leaves a bijection of one index less. -/
theorem Layout.Bijective.closed {layout next : Layout} {n physical logical : Nat}
    (bijective : layout.Bijective (n + 1)) (held : layout.find? physical = some logical)
    (lookup : ∀ q, next.find? q = (layout.find? (openGap physical q)).map (closeGap logical)) :
    next.Bijective n := by
  have physicalLt := bijective.lt held
  have logicalLt := bijective.value_lt held
  have otherLogical : ∀ {q l}, layout.find? (openGap physical q) = some l → l ≠ logical := by
    rintro q l found rfl
    exact openGap_ne physical q (bijective.injective found held)
  refine .of_injective (fun q => ?_) (fun {q l} found => ?_) (fun {q q' l} found found' => ?_)
  · rw [contains, lookup, Option.isSome_map]
    change layout.contains (openGap physical q) = true ↔ q < n
    rw [bijective.contains_iff, openGap]
    split_ifs <;> omega
  · rw [lookup] at found
    rcases Option.map_eq_some_iff.mp found with ⟨l', stored, rfl⟩
    have below := bijective.value_lt stored
    have other := otherLogical stored
    rw [closeGap]
    split_ifs <;> omega
  · rw [lookup] at found found'
    rcases Option.map_eq_some_iff.mp found with ⟨l₁, stored, equal⟩
    rcases Option.map_eq_some_iff.mp found' with ⟨l₂, stored', equal'⟩
    have sameLogical : l₁ = l₂ := by
      rw [← openGap_closeGap (otherLogical stored), ← openGap_closeGap (otherLogical stored'),
        equal, equal']
    subst sameLogical
    rw [← closeGap_openGap physical q, ← closeGap_openGap physical q',
      bijective.injective stored stored']

/-! ## From logical to physical qubits -/

theorem find?_of_physicalOf? {c : Circuit S} {l p : Nat} (found : c.physicalOf? l = some p) :
    c.initialLayout.find? p = some l := by
  rcases Option.map_eq_some_iff.mp found with ⟨⟨q, l'⟩, first, rfl⟩
  have same : l' = l := by simpa using List.find?_some first
  rw [← same]
  exact find?_of_mem_entries (List.mem_of_find?_eq_some first)

theorem physicalOf?_eq_none_iff {c : Circuit S} {l : Nat} :
    c.physicalOf? l = none ↔ ∀ p, c.initialLayout.find? p ≠ some l := by
  constructor
  · intro missing p held
    have absent := List.find?_eq_none.mp (Option.map_eq_none_iff.mp missing) (p, l)
      (mem_entries_of_find? held)
    exact absent (beq_self_eq_true l)
  · intro absent
    cases found : c.physicalOf? l with
    | none => rfl
    | some p => exact absurd (find?_of_physicalOf? found) (absent p)

/-- If one physical qubit only holds a logical one, it is the first of them. -/
theorem physicalOf?_of_only {c : Circuit S} {p l : Nat} (held : c.initialLayout.find? p = some l)
    (only : ∀ q, c.initialLayout.find? q = some l → q = p) : c.physicalOf? l = some p := by
  cases found : c.physicalOf? l with
  | none => exact absurd held (physicalOf?_eq_none_iff.mp found p)
  | some q => rw [only q (find?_of_physicalOf? found)]

/-- In a layout without repetition a logical qubit has one physical qubit. -/
theorem physicalOf?_eq_some {c : Circuit S} {n p l : Nat} (bijective : c.initialLayout.Bijective n)
    (held : c.initialLayout.find? p = some l) : c.physicalOf? l = some p :=
  physicalOf?_of_only held fun _ other => bijective.injective other held

end Circuit

end QuantumCircuit
