import Mathlib.Data.List.Basic
import QuantumCircuit.Proofs.Graph.Table

/-!
# A graph as a map of pairs

`edge?` looks up the label of a pair of vertices.  It is the view in which the queries are
described: they answer from it alone, a new vertex leaves it, and an edge changes it at one
unordered pair.
-/

namespace QuantumCircuit

namespace Graph

variable {V E : Type} [DecidableEq V] {g : Graph V E}

/-! ## The numbers of vertices -/

theorem indexOf?_eq_none_iff {v : V} : g.indexOf? v = none ↔ v ∉ g.vertices := by
  rw [indexOf?, List.findIdx?_eq_none_iff]
  constructor
  · intro never member
    simpa using never v member
  · intro missing w member
    simp only [decide_eq_false_iff_not]
    rintro rfl
    exact missing member

theorem exists_indexOf? {v : V} (member : v ∈ g.vertices) : ∃ i, g.indexOf? v = some i :=
  Option.ne_none_iff_exists'.mp fun none => indexOf?_eq_none_iff.mp none member

/-- The vertex of a number. -/
theorem getElem?_of_indexOf? {v : V} {i : Nat} (found : g.indexOf? v = some i) :
    g.vertices[i]? = some v := by
  rcases List.findIdx?_eq_some_iff_getElem.mp found with ⟨below, equal, _⟩
  rw [List.getElem?_eq_getElem below]
  exact congrArg some (of_decide_eq_true equal)

theorem mem_of_indexOf? {v : V} {i : Nat} (found : g.indexOf? v = some i) : v ∈ g.vertices :=
  List.mem_of_getElem? (getElem?_of_indexOf? found)

theorem lt_of_indexOf? {v : V} {i : Nat} (found : g.indexOf? v = some i) : i < g.numVertices :=
  (List.getElem?_eq_some_iff.mp (getElem?_of_indexOf? found)).1

theorem indexOf?_eq_some_iff (nodup : g.vertices.Nodup) {v : V} {i : Nat} :
    g.indexOf? v = some i ↔ g.vertices[i]? = some v := by
  constructor
  · exact getElem?_of_indexOf?
  · intro held
    rcases exists_indexOf? (List.mem_of_getElem? held) with ⟨k, found⟩
    have heldTwice : g.vertices[k]? = g.vertices[i]? :=
      (getElem?_of_indexOf? found).trans held.symm
    rw [found, (List.getElem?_inj (lt_of_indexOf? found) nodup).mp heldTwice]

/-- Different vertices have different numbers. -/
theorem indexOf?_inj {u v : V} {i : Nat} (left : g.indexOf? u = some i)
    (right : g.indexOf? v = some i) : u = v :=
  Option.some.inj ((getElem?_of_indexOf? left).symm.trans (getElem?_of_indexOf? right))

theorem indexOf?_eq_iff {u v : V} {i j : Nat} (left : g.indexOf? u = some i)
    (right : g.indexOf? v = some j) : i = j ↔ u = v := by
  constructor
  · rintro rfl
    exact indexOf?_inj left right
  · rintro rfl
    exact Option.some.inj (left.symm.trans right)

/-- A new vertex has the next number. -/
theorem indexOf?_pushVertex (g : Graph V E) (v w : V) :
    (g.pushVertex v).indexOf? w =
      (g.indexOf? w).or (if v = w then some g.numVertices else none) := by
  rw [indexOf?, pushVertex, List.findIdx?_append, List.findIdx?_singleton]
  by_cases same : v = w
  · simp [same, indexOf?, numVertices]
  · simp [same, indexOf?]

theorem indexOf?_relabel (g : Graph V E) (i j : Nat) (label : E) (w : V) :
    (g.relabel i j label).indexOf? w = g.indexOf? w := by
  rw [indexOf?, vertices_relabel]
  rfl

/-! ## Labels of pairs -/

/-- The label of a pair of vertices, if both are there and have an edge. -/
def edge? (g : Graph V E) (u v : V) : Option E :=
  (g.indexOf? u).bind fun i => (g.indexOf? v).bind fun j => g.label? i j

theorem edge?_of_indexOf? {u v : V} {i j : Nat} (left : g.indexOf? u = some i)
    (right : g.indexOf? v = some j) : g.edge? u v = g.label? i j := by
  rw [edge?, left, Option.bind_some, right, Option.bind_some]

theorem edge?_comm (g : Graph V E) (u v : V) : g.edge? u v = g.edge? v u := by
  unfold edge?
  cases g.indexOf? u with
  | none => simp
  | some i =>
      cases g.indexOf? v with
      | none => simp
      | some j => exact label?_comm g i j

/-- Pairs with an edge are pairs of vertices. -/
theorem mem_of_edge? {u v : V} (joined : (g.edge? u v).isSome = true) :
    u ∈ g.vertices ∧ v ∈ g.vertices := by
  rcases Option.isSome_iff_exists.mp joined with ⟨label, found⟩
  rcases Option.bind_eq_some_iff.mp found with ⟨i, foundU, rest⟩
  rcases Option.bind_eq_some_iff.mp rest with ⟨j, foundV, _⟩
  exact ⟨mem_of_indexOf? foundU, mem_of_indexOf? foundV⟩

theorem edge?_eq_none {u v : V} (unknown : ¬ (u ∈ g.vertices ∧ v ∈ g.vertices)) :
    g.edge? u v = none := by
  rw [← Option.not_isSome_iff_eq_none]
  exact mt mem_of_edge? unknown

/-! ## Steps -/

/-- A new vertex is in no pair. -/
theorem edge?_pushVertex (tabled : g.Tabled) {v : V} (new : v ∉ g.vertices) (x y : V) :
    (g.pushVertex v).edge? x y = g.edge? x y := by
  have lone : ∀ y, (g.pushVertex v).edge? v y = none := by
    intro y
    simp only [edge?, indexOf?_pushVertex, indexOf?_eq_none_iff.mpr new, Option.none_or, if_true,
      Option.bind_some, label?_pushVertex, tabled.label?_eq_none (Nat.le_refl _)]
    exact Option.bind_fun_none _
  have old : ∀ {w}, w ≠ v → (g.pushVertex v).indexOf? w = g.indexOf? w := by
    intro w different
    rw [indexOf?_pushVertex, if_neg different.symm, Option.or_none]
  by_cases left : x = v
  · rw [left, lone, edge?_eq_none fun known => new known.1]
  · by_cases right : y = v
    · rw [right, edge?_comm, lone, edge?_eq_none fun known => new known.2]
    · simp only [edge?, old left, old right, label?_pushVertex]

/-- A label on two numbers is a label on their vertices. -/
theorem edge?_relabel (triangular : g.Triangular) {u v : V} {i j : Nat}
    (left : g.indexOf? u = some i) (right : g.indexOf? v = some j) (label : E) (x y : V) :
    (g.relabel i j label).edge? x y =
      if s(x, y) = s(u, v) then some label else g.edge? x y := by
  by_cases known : x ∈ g.vertices ∧ y ∈ g.vertices
  · rcases exists_indexOf? known.1 with ⟨a, foundX⟩
    rcases exists_indexOf? known.2 with ⟨b, foundY⟩
    have samePair : s(a, b) = s(i, j) ↔ s(x, y) = s(u, v) := by
      rw [Sym2.eq_iff, Sym2.eq_iff, indexOf?_eq_iff foundX left, indexOf?_eq_iff foundX right,
        indexOf?_eq_iff foundY left, indexOf?_eq_iff foundY right]
    simp only [edge?, indexOf?_relabel, foundX, foundY, Option.bind_some, samePair,
      label?_relabel triangular (lt_of_indexOf? left) (lt_of_indexOf? right)]
  · have otherPair : s(x, y) ≠ s(u, v) := by
      intro same
      have ends := And.intro (mem_of_indexOf? left) (mem_of_indexOf? right)
      rcases Sym2.eq_iff.mp same with ⟨rfl, rfl⟩ | ⟨rfl, rfl⟩
      · exact known ends
      · exact known ends.symm
    rw [if_neg otherPair, edge?_eq_none known, edge?_eq_none (by rwa [vertices_relabel])]

theorem Tabled.ensureVertex (tabled : g.Tabled) (v : V) : (g.ensureVertex v).Tabled := by
  unfold Graph.ensureVertex
  split_ifs with old
  · exact tabled
  · exact tabled.pushVertex old

theorem edge?_ensureVertex (tabled : g.Tabled) (v x y : V) :
    (g.ensureVertex v).edge? x y = g.edge? x y := by
  unfold ensureVertex
  split_ifs with old
  · rfl
  · exact edge?_pushVertex tabled old x y

theorem numEdges_ensureVertex (g : Graph V E) (v : V) :
    (g.ensureVertex v).numEdges = g.numEdges := by
  unfold ensureVertex
  split <;> rfl

theorem mem_ensureVertex (g : Graph V E) (v w : V) :
    w ∈ (g.ensureVertex v).vertices ↔ w = v ∨ w ∈ g.vertices := by
  unfold ensureVertex
  split_ifs with old
  · rw [or_iff_right_of_imp]
    rintro rfl
    exact old
  · rw [pushVertex, List.mem_append, List.mem_singleton, or_comm]

/-- An edge is a new label on the numbers of its ends, once these are there. -/
theorem addEdge_eq_relabel (g : Graph V E) (u v : V) (label : E) :
    ∃ i j, ((g.ensureVertex u).ensureVertex v).indexOf? u = some i ∧
      ((g.ensureVertex u).ensureVertex v).indexOf? v = some j ∧
      g.addEdge u v label = ((g.ensureVertex u).ensureVertex v).relabel i j label := by
  have left : u ∈ ((g.ensureVertex u).ensureVertex v).vertices := by
    rw [mem_ensureVertex, mem_ensureVertex]
    exact .inr (.inl rfl)
  have right : v ∈ ((g.ensureVertex u).ensureVertex v).vertices := by
    rw [mem_ensureVertex]
    exact .inl rfl
  rcases exists_indexOf? left with ⟨i, foundLeft⟩
  rcases exists_indexOf? right with ⟨j, foundRight⟩
  refine ⟨i, j, foundLeft, foundRight, ?_⟩
  simp only [addEdge, foundLeft, foundRight]

theorem Tabled.addEdge (tabled : g.Tabled) (u v : V) (label : E) :
    (g.addEdge u v label).Tabled := by
  rcases addEdge_eq_relabel g u v label with ⟨i, j, left, right, equal⟩
  rw [equal]
  exact ((tabled.ensureVertex u).ensureVertex v).relabel label (lt_of_indexOf? left)
    (lt_of_indexOf? right)

theorem vertices_addEdge (g : Graph V E) (u v : V) (label : E) :
    (g.addEdge u v label).vertices = ((g.ensureVertex u).ensureVertex v).vertices := by
  rcases addEdge_eq_relabel g u v label with ⟨i, j, _, _, equal⟩
  rw [equal, vertices_relabel]

/-- An edge changes the label of its own pair. -/
theorem edge?_addEdge (tabled : g.Tabled) (u v : V) (label : E) (x y : V) :
    (g.addEdge u v label).edge? x y = if s(x, y) = s(u, v) then some label else g.edge? x y := by
  rcases addEdge_eq_relabel g u v label with ⟨i, j, left, right, equal⟩
  have ensured := (tabled.ensureVertex u).ensureVertex v
  rw [equal, edge?_relabel ensured.toTriangular left right, edge?_ensureVertex
    (tabled.ensureVertex u), edge?_ensureVertex tabled]

theorem numEdges_addEdge (tabled : g.Tabled) (u v : V) (label : E) :
    (g.addEdge u v label).numEdges =
      if (g.edge? u v).isNone then g.numEdges + 1 else g.numEdges := by
  rcases addEdge_eq_relabel g u v label with ⟨i, j, left, right, equal⟩
  rw [equal, numEdges_relabel, ← edge?_of_indexOf? left right,
    edge?_ensureVertex (tabled.ensureVertex u), edge?_ensureVertex tabled, numEdges_ensureVertex,
    numEdges_ensureVertex]

/-! ## Queries -/

theorem indexOf_of_not_mem {v : V} (missing : v ∉ g.vertices) :
    g.indexOf v = .error (.vertexNotFound v) := by
  rw [indexOf, indexOf?_eq_none_iff.mpr missing]

theorem indexOf_of_indexOf? {v : V} {i : Nat} (found : g.indexOf? v = some i) :
    g.indexOf v = .ok i := by
  rw [indexOf, found]

/-- The label is found, or the first vertex that is not there is missed, or the pair itself. -/
theorem getEdge_eq (g : Graph V E) (u v : V) :
    g.getEdge u v = match g.edge? u v with
      | some label => .ok label
      | none =>
        if u ∉ g.vertices then .error (.vertexNotFound u)
        else if v ∉ g.vertices then .error (.vertexNotFound v)
        else .error (.edgeNotFound u v) := by
  by_cases left : u ∈ g.vertices
  · rcases exists_indexOf? left with ⟨i, foundU⟩
    by_cases right : v ∈ g.vertices
    · rcases exists_indexOf? right with ⟨j, foundV⟩
      rw [getEdge, indexOf_of_indexOf? foundU, indexOf_of_indexOf? foundV,
        edge?_of_indexOf? foundU foundV, if_neg (not_not_intro left), if_neg (not_not_intro right)]
      rfl
    · rw [getEdge, indexOf_of_indexOf? foundU, indexOf_of_not_mem right,
        edge?_eq_none fun known => right known.2]
      simp only [if_neg (not_not_intro left), if_pos right]
      rfl
  · rw [getEdge, indexOf_of_not_mem left, edge?_eq_none fun known => left known.1]
    simp only [if_pos left]
    rfl

theorem isAdjacent_eq (g : Graph V E) (u v : V) : g.isAdjacent u v = (g.edge? u v).isSome := by
  unfold isAdjacent edge?
  cases g.indexOf? u with
  | none => rfl
  | some i =>
      cases g.indexOf? v with
      | none => rfl
      | some j => rfl

omit [DecidableEq V] in
theorem nodup_neighboursAt (nodup : g.vertices.Nodup) (i : Nat) : (g.neighboursAt i).Nodup := by
  have sublist : List.Sublist (g.neighboursAt i) (g.vertices.zipIdx.map (·.1)) :=
    (List.filter_sublist).map _
  rw [List.zipIdx_map_fst] at sublist
  exact nodup.sublist sublist

omit [DecidableEq V] in
theorem length_neighboursAt (g : Graph V E) (i : Nat) :
    (g.neighboursAt i).length = g.edgeCount i := by
  have numbers : List.range g.numVertices = g.vertices.zipIdx.map (·.2) := by
    rw [List.zipIdx_map_snd, ← List.range_eq_range']
    rfl
  rw [edgeCount, numbers, List.filter_map, List.length_map, neighboursAt, List.length_map]
  rfl

theorem mem_neighboursAt (nodup : g.vertices.Nodup) {v : V} {i : Nat}
    (found : g.indexOf? v = some i) (w : V) :
    w ∈ g.neighboursAt i ↔ (g.edge? v w).isSome = true := by
  simp only [neighboursAt, List.mem_map, List.mem_filter, Prod.exists, exists_and_right,
    exists_eq_right, List.mem_zipIdx_iff_getElem?]
  constructor
  · rintro ⟨j, held, labelled⟩
    rwa [edge?_of_indexOf? found ((indexOf?_eq_some_iff nodup).mpr held)]
  · intro joined
    rcases exists_indexOf? (mem_of_edge? joined).2 with ⟨j, foundW⟩
    rw [edge?_of_indexOf? found foundW] at joined
    exact ⟨j, getElem?_of_indexOf? foundW, joined⟩

/-- Queries at one vertex fail where it is not there. -/
theorem queries_of_not_mem {v : V} (missing : v ∉ g.vertices) :
    g.neighbours v = .error (.vertexNotFound v) ∧ g.adjacentEdges v = .error (.vertexNotFound v) ∧
      g.degree v = .error (.vertexNotFound v) := by
  refine ⟨?_, ?_, ?_⟩
  · rw [neighbours, indexOf_of_not_mem missing]
    rfl
  · rw [adjacentEdges, neighbours, indexOf_of_not_mem missing]
    rfl
  · rw [degree, indexOf_of_not_mem missing]
    rfl

/-- The degree is the number of neighbours, and there is an edge at the vertex for each of them. -/
theorem Tabled.queries_of_mem (tabled : g.Tabled) {v : V} (member : v ∈ g.vertices) :
    ∃ ws, g.neighbours v = .ok ws ∧ ws.Nodup ∧ (∀ w, w ∈ ws ↔ (g.edge? v w).isSome = true) ∧
      g.adjacentEdges v = .ok (ws.map fun w => (v, w)) ∧ g.degree v = .ok ws.length := by
  rcases exists_indexOf? member with ⟨i, found⟩
  have found' : g.indexOf v = .ok i := indexOf_of_indexOf? found
  have entry : g.degrees.getD i 0 = g.edgeCount i := by
    rw [tabled.degrees_eq, List.getD_eq_getElem?_getD, List.getElem?_map,
      List.getElem?_range (lt_of_indexOf? found)]
    rfl
  refine ⟨g.neighboursAt i, ?_, nodup_neighboursAt tabled.nodup_vertices i,
    mem_neighboursAt tabled.nodup_vertices found, ?_, ?_⟩
  · rw [neighbours, found']
    rfl
  · rw [adjacentEdges, neighbours, found']
    rfl
  · rw [degree, found', length_neighboursAt, ← entry]
    rfl

end Graph

end QuantumCircuit
