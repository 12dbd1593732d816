import Mathlib.Data.List.Nodup
import Mathlib.Data.List.NodupEquivFin
import Mathlib.Data.Sym.Sym2
import Mathlib.Tactic.SplitIfs
import QuantumCircuit.Graph

/-!
# The table of a graph

The table of a graph has a slot for each unordered pair of vertex numbers, so `label?` does not
depend on the order of the two numbers, and putting a label on a pair changes the label of this pair
only.  Degrees and the number of edges are counted apart from the table; `Tabled` says that they
agree with it, and that the rows have the right numbers of slots.
-/

namespace QuantumCircuit

/-- One element more makes a list without repetitions longer by one. -/
theorem length_eq_succ_of_mem_iff {α : Type} {l l' : List α} {x : α} (nodup : l.Nodup)
    (nodup' : l'.Nodup) (new : x ∉ l) (mem_iff : ∀ y, y ∈ l' ↔ y = x ∨ y ∈ l) :
    l'.length = l.length + 1 := by
  have permuted : List.Perm l' (x :: l) := by
    rw [List.perm_ext_iff_of_nodup nodup' (List.nodup_cons.mpr ⟨new, nodup⟩)]
    intro y
    rw [mem_iff, List.mem_cons]
  rw [permuted.length_eq, List.length_cons]

/-- Two numbers are an unordered pair together with their order. -/
theorem sym2_eq_iff_min_max {a b i j : Nat} :
    s(a, b) = s(i, j) ↔ min a b = min i j ∧ max a b = max i j := by
  rw [Sym2.eq_iff]
  omega

namespace Graph

variable {V E : Type} {g : Graph V E}

/-! ## Slots -/

theorem label?_comm (g : Graph V E) (i j : Nat) : g.label? i j = g.label? j i := by
  rw [label?, label?, Nat.min_comm, Nat.max_comm]

/-- The label of a pair in order. -/
theorem label?_of_le (g : Graph V E) {i j : Nat} (ordered : i ≤ j) :
    g.label? i j = (g.rows[i]?).bind fun row => (row[j - i]?).join := by
  rw [label?, Nat.min_eq_left ordered, Nat.max_eq_right ordered]

/-- Whether row `i` has a slot for each vertex number from `i` on. -/
structure Triangular (g : Graph V E) : Prop where
  /-- There is a row for each vertex. -/
  length_rows : g.rows.length = g.numVertices
  /-- The row of a vertex has a slot for it and each vertex after it. -/
  size_row : ∀ {i row}, g.rows[i]? = some row → row.size = g.numVertices - i

theorem Triangular.row? (triangular : g.Triangular) {i : Nat} (below : i < g.numVertices) :
    ∃ row, g.rows[i]? = some row ∧ row.size = g.numVertices - i := by
  have inside : i < g.rows.length := by rwa [triangular.length_rows]
  exact ⟨g.rows[i], List.getElem?_eq_getElem inside,
    triangular.size_row (List.getElem?_eq_getElem inside)⟩

/-- Labels are on vertex numbers. -/
theorem Triangular.lt_of_label? (triangular : g.Triangular) {i j : Nat} {label : E}
    (found : g.label? i j = some label) : i < g.numVertices ∧ j < g.numVertices := by
  rcases Option.bind_eq_some_iff.mp found with ⟨row, atRow, atSlot⟩
  rcases Option.join_eq_some_iff.mp atSlot with slot
  have slotLt : max i j - min i j < row.size := (Array.getElem?_eq_some_iff.mp slot).1
  rw [triangular.size_row atRow] at slotLt
  omega

theorem Triangular.label?_eq_none (triangular : g.Triangular) {i j : Nat}
    (beyond : g.numVertices ≤ i) : g.label? i j = none :=
  Option.eq_none_iff_forall_ne_some.mpr fun _ found =>
    absurd (triangular.lt_of_label? found).1 (Nat.not_lt.mpr beyond)

/-- A new vertex has no edges. -/
theorem label?_pushVertex (g : Graph V E) (v : V) (i j : Nat) :
    (g.pushVertex v).label? i j = g.label? i j := by
  have slot : ∀ (row : Array (Option E)) (k : Nat),
      ((row.push none)[k]?).join = (row[k]?).join := by
    intro row k
    rw [Array.getElem?_push]
    split_ifs with last
    · rw [last, Array.getElem?_eq_none (Nat.le_refl _)]
      rfl
    · rfl
  have lone : ∀ k : Nat, ((#[none] : Array (Option E))[k]?).join = none := by
    intro k
    cases k with
    | zero => rfl
    | succ k => rfl
  simp only [label?, pushVertex, List.getElem?_append, List.length_map, List.getElem?_map]
  split_ifs with old
  · rw [Option.bind_map]
    simp only [Function.comp_def, slot]
  · rw [List.getElem?_eq_none (Nat.not_lt.mp old), Option.bind_none]
    cases min i j - g.rows.length with
    | zero => exact lone _
    | succ _ => rfl

/-- Putting a label on a pair changes the label of this pair only. -/
theorem label?_setLabel (triangular : g.Triangular) {i j : Nat} (left : i < g.numVertices)
    (right : j < g.numVertices) (label : E) (a b : Nat) :
    (g.setLabel i j label).label? a b = if s(a, b) = s(i, j) then some label else g.label? a b := by
  simp only [label?, setLabel, List.getElem?_modify, sym2_eq_iff_min_max]
  by_cases sameRow : min a b = min i j
  · rcases triangular.row? (i := min i j) (by omega) with ⟨row, found, size⟩
    simp only [sameRow, found, if_true, true_and, Option.map_eq_map, Option.map_some,
      Option.bind_some, Array.getElem?_setIfInBounds]
    by_cases sameSlot : max a b = max i j
    · have inside : max i j - min i j < row.size := by omega
      simp only [sameSlot, if_true, inside]
      rfl
    · have otherSlot : ¬ max i j - min i j = max a b - min i j := by omega
      rw [if_neg sameSlot, if_neg otherSlot]
  · have otherRow : ¬ min i j = min a b := Ne.symm sameRow
    simp only [otherRow, sameRow, false_and, if_false, Option.map_eq_map, Option.map_id']

/-! ## Pairs with an edge -/

/-- The pairs that are listed are those with a label, the lower number first. -/
theorem mem_edgeIndices (g : Graph V E) {i j : Nat} :
    (i, j) ∈ g.edgeIndices ↔ i ≤ j ∧ (g.label? i j).isSome = true := by
  simp only [edgeIndices, List.mem_flatMap, List.mem_map, List.mem_filter, Prod.exists,
    List.mem_zipIdx_iff_getElem?, Prod.mk.injEq, Array.getElem?_toList]
  constructor
  · rintro ⟨row, _, atRow, slot, k, ⟨atSlot, labelled⟩, rfl, rfl⟩
    refine ⟨Nat.le_add_right _ _, ?_⟩
    rw [label?_of_le g (Nat.le_add_right _ _), atRow, Option.bind_some, Nat.add_sub_cancel_left,
      atSlot, Option.join_some]
    exact labelled
  · rintro ⟨ordered, labelled⟩
    rcases Option.isSome_iff_exists.mp labelled with ⟨label, found⟩
    rw [label?_of_le g ordered] at found
    rcases Option.bind_eq_some_iff.mp found with ⟨row, atRow, atSlot⟩
    exact ⟨row, i, atRow, some label, j - i, ⟨Option.join_eq_some_iff.mp atSlot, rfl⟩, rfl,
      Nat.add_sub_cancel' ordered⟩

/-- A pair is listed, in order, if it has a label. -/
theorem mem_edgeIndices_min_max (g : Graph V E) (i j : Nat) :
    (min i j, max i j) ∈ g.edgeIndices ↔ (g.label? i j).isSome = true := by
  rw [mem_edgeIndices]
  rcases Nat.le_total i j with ordered | ordered
  · rw [Nat.min_eq_left ordered, Nat.max_eq_right ordered, and_iff_right ordered]
  · rw [Nat.min_eq_right ordered, Nat.max_eq_left ordered, and_iff_right ordered, label?_comm]

theorem nodup_edgeIndices (g : Graph V E) : g.edgeIndices.Nodup := by
  have positions : ∀ {α : Type} (l : List α), (l.zipIdx.map (·.2)).Nodup := by
    intro α l
    rw [List.zipIdx_map_snd]
    exact List.nodup_range'
  rw [edgeIndices, List.nodup_flatMap]
  constructor
  · intro row _
    have slots : (row.1.toList.zipIdx.filter (·.1.isSome)).Pairwise fun s t => s.2 ≠ t.2 :=
      (List.pairwise_map.mp (positions row.1.toList)).filter _
    refine List.pairwise_map.mpr (slots.imp fun different same => different ?_)
    have sums : row.2 + _ = row.2 + _ := congrArg Prod.snd same
    exact Nat.add_left_cancel sums
  · refine (List.pairwise_map.mp (positions g.rows)).imp fun {row row'} different => ?_
    simp only [Function.onFun, List.disjoint_left, List.mem_map, not_exists, not_and]
    rintro _ ⟨slot, _, rfl⟩ slot' _ same
    exact different (congrArg Prod.fst same).symm

/-- The number of edges at a vertex number, counted in the table. -/
def edgeCount (g : Graph V E) (i : Nat) : Nat :=
  ((List.range g.numVertices).filter fun j => (g.label? i j).isSome).length

/-- A graph whose rows have the right numbers of slots, and whose counts agree with its table. -/
structure Tabled (g : Graph V E) : Prop extends Triangular g where
  /-- No vertex is there twice. -/
  nodup_vertices : g.vertices.Nodup
  /-- The degrees count the labels at each vertex. -/
  degrees_eq : g.degrees = (List.range g.numVertices).map g.edgeCount
  /-- The number of edges counts the labels. -/
  numEdges_eq : g.numEdges = g.edgeIndices.length

theorem tabled_empty : (empty : Graph V E).Tabled where
  length_rows := rfl
  size_row := fun found => nomatch found
  nodup_vertices := List.nodup_nil
  degrees_eq := rfl
  numEdges_eq := rfl

/-! ## New vertices -/

theorem numVertices_pushVertex (g : Graph V E) (v : V) :
    (g.pushVertex v).numVertices = g.numVertices + 1 := by
  simp [numVertices, pushVertex]

theorem edgeCount_pushVertex (triangular : g.Triangular) (v : V) (i : Nat) :
    (g.pushVertex v).edgeCount i = g.edgeCount i := by
  have last : g.label? i g.numVertices = none := by
    rw [label?_comm]
    exact triangular.label?_eq_none (Nat.le_refl _)
  simp [edgeCount, numVertices_pushVertex, label?_pushVertex, List.range_succ, last]

theorem Tabled.pushVertex (tabled : g.Tabled) {v : V} (new : v ∉ g.vertices) :
    (g.pushVertex v).Tabled where
  length_rows := by simp [Graph.pushVertex, numVertices, tabled.length_rows]
  size_row := by
    intro i row found
    simp only [Graph.pushVertex, List.getElem?_append, List.length_map, List.getElem?_map,
      tabled.length_rows] at found
    rw [numVertices_pushVertex]
    split_ifs at found with old
    · rcases Option.map_eq_some_iff.mp found with ⟨before, atRow, rfl⟩
      rw [Array.size_push, tabled.size_row atRow]
      omega
    · rcases List.getElem?_eq_some_iff.mp found with ⟨first, rfl⟩
      simp only [List.length_singleton] at first
      simp only [List.getElem_singleton, List.size_toArray, List.length_singleton]
      omega
  nodup_vertices := by
    simp only [Graph.pushVertex, ← List.concat_eq_append]
    exact tabled.nodup_vertices.concat new
  degrees_eq := by
    have count : (g.pushVertex v).edgeCount = g.edgeCount :=
      funext fun i => edgeCount_pushVertex tabled.toTriangular v i
    have none : g.edgeCount g.numVertices = 0 := by
      simp [edgeCount, tabled.label?_eq_none (Nat.le_refl _)]
    rw [count, numVertices_pushVertex, List.range_succ, List.map_append, List.map_singleton, none,
      ← tabled.degrees_eq]
    rfl
  numEdges_eq := by
    have same : List.Perm (g.pushVertex v).edgeIndices g.edgeIndices := by
      rw [List.perm_ext_iff_of_nodup (nodup_edgeIndices _) (nodup_edgeIndices _)]
      rintro ⟨i, j⟩
      rw [mem_edgeIndices, mem_edgeIndices, label?_pushVertex]
    rw [same.length_eq, ← tabled.numEdges_eq]
    rfl

/-! ## New labels -/

theorem numVertices_relabel (g : Graph V E) (i j : Nat) (label : E) :
    (g.relabel i j label).numVertices = g.numVertices := by
  unfold relabel
  dsimp only
  split <;> rfl

theorem vertices_relabel (g : Graph V E) (i j : Nat) (label : E) :
    (g.relabel i j label).vertices = g.vertices := by
  unfold relabel
  dsimp only
  split <;> rfl

theorem rows_relabel (g : Graph V E) (i j : Nat) (label : E) :
    (g.relabel i j label).rows = (g.setLabel i j label).rows := by
  unfold relabel
  dsimp only
  split <;> rfl

/-- An edge counts if its pair had none. -/
theorem numEdges_relabel (g : Graph V E) (i j : Nat) (label : E) :
    (g.relabel i j label).numEdges =
      if (g.label? i j).isNone then g.numEdges + 1 else g.numEdges := by
  unfold relabel
  dsimp only
  split <;> rfl

theorem getElem?_degrees_countEdge (g : Graph V E) (i j a : Nat) :
    (g.countEdge i j).degrees[a]? =
      (g.degrees[a]?).map fun degree => if a = i ∨ a = j then degree + 1 else degree := by
  by_cases loop : i = j
  · subst loop
    simp only [countEdge, if_true, List.getElem?_modify, or_self]
    by_cases atEnd : i = a
    · simp [atEnd]
    · simp [atEnd, Ne.symm atEnd]
  · simp only [countEdge, loop, if_false, List.getElem?_modify]
    by_cases left : i = a
    · have notRight : ¬ j = a := fun right => loop (left.trans right.symm)
      simp [left, notRight]
    · by_cases right : j = a
      · simp [left, right]
      · simp [left, right, Ne.symm left, Ne.symm right]

/-- Each end of an edge counts it if its pair had none. -/
theorem getElem?_degrees_relabel (g : Graph V E) (i j : Nat) (label : E) (a : Nat) :
    (g.relabel i j label).degrees[a]? = (g.degrees[a]?).map fun degree =>
      if (g.label? i j).isNone ∧ (a = i ∨ a = j) then degree + 1 else degree := by
  unfold relabel
  cases (g.label? i j).isNone with
  | true =>
      simp only [if_true, true_and]
      exact getElem?_degrees_countEdge g i j a
  | false =>
      simp only [Bool.false_eq_true, false_and, if_false, Option.map_id']
      rfl

theorem label?_relabel (triangular : g.Triangular) {i j : Nat} (left : i < g.numVertices)
    (right : j < g.numVertices) (label : E) (a b : Nat) :
    (g.relabel i j label).label? a b = if s(a, b) = s(i, j) then some label else g.label? a b := by
  rw [← label?_setLabel triangular left right]
  simp only [label?, rows_relabel]

section Relabel

variable {i j : Nat} (label : E)

/-- The count of the table grows where an edge is new, by one at each of its ends. -/
theorem edgeCount_relabel (triangular : g.Triangular) (left : i < g.numVertices)
    (right : j < g.numVertices) (a : Nat) :
    (g.relabel i j label).edgeCount a =
      if (g.label? i j).isNone ∧ (a = i ∨ a = j) then g.edgeCount a + 1 else g.edgeCount a := by
  -- The other end of a new edge is the one vertex that joins those with a label.
  have joins : ∀ {a other : Nat}, other < g.numVertices → g.label? a other = none →
      s(a, other) = s(i, j) → (g.relabel i j label).edgeCount a = g.edgeCount a + 1 := by
    intro a other below unlabelled pair
    refine length_eq_succ_of_mem_iff (x := other) (List.nodup_range.filter _)
      (List.nodup_range.filter _) (by simp [unlabelled]) fun b => ?_
    simp only [List.mem_filter, List.mem_range, numVertices_relabel,
      label?_relabel triangular left right, ← pair, Sym2.congr_right]
    by_cases equal : b = other
    · simp [equal, below]
    · simp [equal]
  split_ifs with new
  · rcases new with ⟨unlabelled, rfl | rfl⟩
    · exact joins right (Option.isNone_iff_eq_none.mp unlabelled) rfl
    · rw [label?_comm] at unlabelled
      exact joins left (Option.isNone_iff_eq_none.mp unlabelled) Sym2.eq_swap
  · simp only [edgeCount, numVertices_relabel, label?_relabel triangular left right]
    refine congrArg List.length (List.filter_congr fun b _ => ?_)
    split_ifs with same
    · rcases Sym2.eq_iff.mp same with ⟨rfl, rfl⟩ | ⟨rfl, rfl⟩
      · simpa [Option.isSome_iff_ne_none] using new
      · rw [label?_comm]
        simpa [Option.isSome_iff_ne_none] using new
    · rfl

/-- The listed pairs after a label was put on a pair. -/
theorem mem_edgeIndices_relabel (triangular : g.Triangular) (left : i < g.numVertices)
    (right : j < g.numVertices) (e : Nat × Nat) :
    e ∈ (g.relabel i j label).edgeIndices ↔ e = (min i j, max i j) ∨ e ∈ g.edgeIndices := by
  rcases e with ⟨a, b⟩
  rw [mem_edgeIndices, mem_edgeIndices, label?_relabel triangular left right, Prod.mk.injEq]
  by_cases same : s(a, b) = s(i, j)
  · have ends := sym2_eq_iff_min_max.mp same
    rw [if_pos same]
    simp only [Option.isSome_some, and_true]
    constructor
    · intro ordered
      omega
    · rintro (equal | old)
      · omega
      · exact old.1
  · have ends := mt sym2_eq_iff_min_max.mpr same
    rw [if_neg same]
    constructor
    · exact .inr
    · rintro (equal | old)
      · omega
      · exact old

/-- The listed pairs are one more where an edge is new. -/
theorem length_edgeIndices_relabel (triangular : g.Triangular) (left : i < g.numVertices)
    (right : j < g.numVertices) :
    (g.relabel i j label).edgeIndices.length =
      if (g.label? i j).isNone then g.edgeIndices.length + 1 else g.edgeIndices.length := by
  have listed := mem_edgeIndices_relabel label triangular left right
  have isListed := mem_edgeIndices_min_max g i j
  split_ifs with new
  · rw [← Option.not_isSome, Bool.not_eq_true'] at new
    exact length_eq_succ_of_mem_iff (nodup_edgeIndices _) (nodup_edgeIndices _)
      (fun old => by simp [isListed.mp old] at new) listed
  · rw [← Option.not_isSome, Bool.not_eq_true', Bool.not_eq_false] at new
    have same : List.Perm (g.relabel i j label).edgeIndices g.edgeIndices := by
      rw [List.perm_ext_iff_of_nodup (nodup_edgeIndices _) (nodup_edgeIndices _)]
      intro e
      rw [listed, or_iff_right_of_imp]
      rintro rfl
      exact isListed.mpr new
    exact same.length_eq

theorem Tabled.relabel (tabled : g.Tabled) (left : i < g.numVertices) (right : j < g.numVertices) :
    (g.relabel i j label).Tabled where
  length_rows := by
    rw [rows_relabel, numVertices_relabel, ← tabled.length_rows]
    exact List.length_modify _ _ _
  size_row := by
    intro a row found
    rw [rows_relabel] at found
    simp only [setLabel, List.getElem?_modify] at found
    rcases Option.map_eq_some_iff.mp found with ⟨before, atRow, rfl⟩
    rw [numVertices_relabel, ← tabled.size_row atRow]
    split_ifs
    · exact Array.size_setIfInBounds
    · rfl
  nodup_vertices := by
    rw [vertices_relabel]
    exact tabled.nodup_vertices
  degrees_eq := by
    refine List.ext_getElem? fun a => ?_
    rw [getElem?_degrees_relabel, numVertices_relabel, tabled.degrees_eq, List.getElem?_map,
      List.getElem?_map, Option.map_map]
    by_cases below : a < g.numVertices
    · rw [List.getElem?_range below, Option.map_some, Option.map_some,
        edgeCount_relabel label tabled.toTriangular left right]
      rfl
    · rw [List.getElem?_eq_none (by simpa using below)]
      rfl
  numEdges_eq := by
    rw [numEdges_relabel, length_edgeIndices_relabel label tabled.toTriangular left right,
      tabled.numEdges_eq]

end Relabel

end Graph

end QuantumCircuit
