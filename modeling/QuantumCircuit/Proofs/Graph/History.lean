import Mathlib.Data.Finset.Card
import Mathlib.Data.Finset.Dedup
import QuantumCircuit.Proofs.Digits
import QuantumCircuit.Proofs.Graph.View

/-!
# Graphs by their history

A graph is the result of the steps that made it.  What it says can be read off these steps: the
vertices are those that steps mention, in the order of first mention, and the label of an unordered
pair is the one that the last edge between the two was given.
-/

namespace QuantumCircuit

/-- A call that changes a graph, with its arguments. -/
inductive GraphStep (V E : Type) where
  /-- `addVertex`. -/
  | addVertex (v : V)
  /-- `addEdge`. -/
  | addEdge (u v : V) (label : E)

namespace GraphStep

variable {V E : Type}

/-- The vertices that a step mentions. -/
def mentions : GraphStep V E → List V
  | .addVertex v => [v]
  | .addEdge u v _ => [u, v]

/-- The unordered pair that a step puts a label on. -/
def pair? : GraphStep V E → Option (Sym2 V)
  | .addVertex _ => none
  | .addEdge u v _ => some s(u, v)

variable [DecidableEq V]

/-- The label that a step puts on an unordered pair. -/
def labelOn? (pair : Sym2 V) : GraphStep V E → Option E
  | .addVertex _ => none
  | .addEdge u v label => if pair = s(u, v) then some label else none

/-- The graph after a step, also after one that fails. -/
def run (g : Graph V E) : GraphStep V E → Graph V E
  | .addVertex v => (g.addVertex v).2
  | .addEdge u v label => g.addEdge u v label

/-- The label that the last edge between a pair was given. -/
def lastLabel? (steps : List (GraphStep V E)) (pair : Sym2 V) : Option E :=
  steps.reverse.findSome? (labelOn? pair)

/-- The distinct unordered pairs that edges were added to. -/
def pairs (steps : List (GraphStep V E)) : Finset (Sym2 V) :=
  (steps.filterMap pair?).toFinset

end GraphStep

namespace Graph

open GraphStep

variable {V E : Type} [DecidableEq V]

/-- The graph that steps lead to, from the empty one. -/
def ofSteps (steps : List (GraphStep V E)) : Graph V E :=
  steps.foldl GraphStep.run empty

/-! ## One step more -/

theorem ofSteps_concat (steps : List (GraphStep V E)) (step : GraphStep V E) :
    ofSteps (steps ++ [step]) = step.run (ofSteps steps) :=
  List.foldl_concat _ _ _ _

theorem lastLabel?_concat (steps : List (GraphStep V E)) (step : GraphStep V E) (pair : Sym2 V) :
    lastLabel? (steps ++ [step]) pair = (step.labelOn? pair).or (lastLabel? steps pair) := by
  rw [lastLabel?, List.reverse_append, List.reverse_singleton, List.singleton_append,
    List.findSome?_cons]
  cases step.labelOn? pair with
  | none => rfl
  | some label => rfl

/-- The pairs with a label are those that edges were added to. -/
theorem mem_pairs_iff (steps : List (GraphStep V E)) (pair : Sym2 V) :
    pair ∈ pairs steps ↔ (lastLabel? steps pair).isSome = true := by
  simp only [pairs, List.mem_toFinset, List.mem_filterMap, lastLabel?, List.isSome_findSome?,
    List.any_reverse, List.any_eq_true]
  refine exists_congr fun step => and_congr_right fun _ => ?_
  cases step with
  | addVertex v => simp [pair?, labelOn?]
  | addEdge u v label =>
      by_cases same : pair = s(u, v)
      · simp [pair?, labelOn?, same]
      · simp [pair?, labelOn?, same, Ne.symm same]

theorem run_addVertex (g : Graph V E) (v : V) :
    (GraphStep.addVertex v).run g = g.ensureVertex v := by
  rw [run, Graph.addVertex, ensureVertex]
  split_ifs <;> rfl

theorem Tabled.run {g : Graph V E} (tabled : g.Tabled) (step : GraphStep V E) :
    (step.run g).Tabled := by
  cases step with
  | addVertex v =>
      rw [run_addVertex]
      exact tabled.ensureVertex v
  | addEdge u v label => exact tabled.addEdge u v label

theorem tabled_ofSteps (steps : List (GraphStep V E)) : (ofSteps steps).Tabled := by
  induction steps using List.reverseRecOn with
  | nil => exact tabled_empty
  | append_singleton steps step ih =>
      rw [ofSteps_concat]
      exact ih.run step

/-! ## What the steps determine -/

/-- A vertex that is added unless it is there is one more mention. -/
theorem vertices_ensureVertex {g : Graph V E} {mentioned : List V}
    (listed : g.vertices = mentioned.eraseDups) (v : V) :
    (g.ensureVertex v).vertices = (mentioned ++ [v]).eraseDups := by
  have member : v ∈ g.vertices ↔ v ∈ mentioned := by
    rw [listed, List.mem_eraseDups]
  rw [List.eraseDups_append, ← listed, ensureVertex]
  by_cases old : v ∈ mentioned
  · rw [if_pos (member.mpr old)]
    simp [List.removeAll, old]
  · rw [if_neg (mt member.mp old)]
    simp [List.removeAll, old, pushVertex, List.eraseDups_cons]

theorem vertices_ofSteps (steps : List (GraphStep V E)) :
    (ofSteps steps).vertices = (steps.flatMap mentions).eraseDups := by
  induction steps using List.reverseRecOn with
  | nil => rfl
  | append_singleton steps step ih =>
      rw [ofSteps_concat, List.flatMap_append, List.flatMap_singleton]
      cases step with
      | addVertex v =>
          rw [run_addVertex]
          exact vertices_ensureVertex ih v
      | addEdge u v label =>
          rw [run, vertices_addEdge, vertices_ensureVertex (vertices_ensureVertex ih u) v,
            List.append_assoc]
          rfl

theorem edge?_ofSteps (steps : List (GraphStep V E)) (x y : V) :
    (ofSteps steps).edge? x y = lastLabel? steps s(x, y) := by
  induction steps using List.reverseRecOn with
  | nil => rfl
  | append_singleton steps step ih =>
      rw [ofSteps_concat, lastLabel?_concat]
      cases step with
      | addVertex v =>
          rw [run_addVertex, edge?_ensureVertex (tabled_ofSteps steps), ih]
          rfl
      | addEdge u v label =>
          rw [run, edge?_addEdge (tabled_ofSteps steps), ih, labelOn?]
          split_ifs <;> rfl

theorem numEdges_ofSteps (steps : List (GraphStep V E)) :
    (ofSteps steps).numEdges = (pairs steps).card := by
  induction steps using List.reverseRecOn with
  | nil => rfl
  | append_singleton steps step ih =>
      rw [ofSteps_concat]
      cases step with
      | addVertex v =>
          rw [run_addVertex, numEdges_ensureVertex, ih, pairs, pairs, List.filterMap_append]
          exact congrArg Finset.card (congrArg List.toFinset (List.append_nil _).symm)
      | addEdge u v label =>
          have inserted : pairs (steps ++ [.addEdge u v label]) = insert s(u, v) (pairs steps) := by
            ext pair
            simp [pairs, pair?, eq_comm]
          rw [run, numEdges_addEdge (tabled_ofSteps steps), edge?_ofSteps, inserted, ih]
          simp only [← Option.not_isSome, Bool.not_eq_true', ← Bool.not_eq_true, ← mem_pairs_iff]
          split_ifs with old
          · rw [Finset.insert_eq_of_mem old]
          · rw [Finset.card_insert_of_notMem old]

/-! ## The lines of edges -/

/-- The line of an edge tells the numbers of its ends. -/
theorem edgeLine_injective : Function.Injective edgeLine := by
  rintro ⟨i, j⟩ ⟨i', j'⟩ same
  have separator : " -- ".toList = ' ' :: ['-', '-', ' '] := rfl
  have lists := congrArg String.toList same
  simp only [edgeLine, String.toList_append, Nat.toString_eq_ofList_toDigits, separator,
    String.toList_ofList, List.append_assoc, List.cons_append] at lists
  rcases digits_append_inj rfl (List.append_cancel_left lists) with ⟨rfl, tails⟩
  have seconds : Nat.toDigits 10 j ++ ";\n".toList = Nat.toDigits 10 j' ++ ";\n".toList := by
    simpa only [List.cons.injEq, true_and, List.nil_append] using tails
  rw [toDigits_injective (List.append_cancel_right seconds)]

/-- Each edge has one line, and pairs without an edge have none. -/
theorem count_edgeLine (g : Graph V E) {u v : V} {i j : Nat} (left : g.indexOf? u = some i)
    (right : g.indexOf? v = some j) :
    g.edgeLines.count (edgeLine (min i j, max i j)) = if (g.edge? u v).isSome then 1 else 0 := by
  have nodup : g.edgeLines.Nodup := (nodup_edgeIndices g).map edgeLine_injective
  have listed : edgeLine (min i j, max i j) ∈ g.edgeLines ↔ (g.edge? u v).isSome = true := by
    rw [edgeLines, List.mem_map_of_injective edgeLine_injective, mem_edgeIndices_min_max,
      edge?_of_indexOf? left right]
  split_ifs with joined
  · exact List.count_eq_one_of_mem nodup (listed.mpr joined)
  · exact List.count_eq_zero.mpr (mt listed.mp joined)

/-! ## All answers -/

/-- What a graph answers, told by the steps that led to it. -/
structure Recalls [ToString V] (g : Graph V E) (steps : List (GraphStep V E)) : Prop where
  /-- The vertices are those mentioned, in the order of first mention. -/
  vertices_eq : g.vertices = (steps.flatMap mentions).eraseDups
  /-- A pair has the last label it was given, in either order.  Without one, the first of the two
  that was never mentioned is missed, or else the edge. -/
  getEdge_eq : ∀ u v, g.getEdge u v = match lastLabel? steps s(u, v) with
    | some label => .ok label
    | none =>
      if u ∉ g.vertices then .error (.vertexNotFound u)
      else if v ∉ g.vertices then .error (.vertexNotFound v)
      else .error (.edgeNotFound u v)
  /-- The pairs with a label are adjacent. -/
  isAdjacent_eq : ∀ u v, g.isAdjacent u v = (lastLabel? steps s(u, v)).isSome
  /-- The edges are the distinct unordered pairs that were added. -/
  numEdges_eq : g.numEdges = (pairs steps).card
  /-- At a vertex, degree, neighbours and edges agree, and no neighbour is listed twice. -/
  queries_of_mem : ∀ v, v ∈ g.vertices → ∃ ws, g.neighbours v = .ok ws ∧ ws.Nodup ∧
    (∀ w, w ∈ ws ↔ g.isAdjacent v w = true) ∧
    g.adjacentEdges v = .ok (ws.map fun w => (v, w)) ∧ g.degree v = .ok ws.length
  /-- There are no answers at what is no vertex. -/
  queries_of_not_mem : ∀ v, v ∉ g.vertices → g.neighbours v = .error (.vertexNotFound v) ∧
    g.adjacentEdges v = .error (.vertexNotFound v) ∧ g.degree v = .error (.vertexNotFound v)
  /-- Adding a vertex that is there fails, and leaves the graph. -/
  addVertex_of_mem : ∀ v, v ∈ g.vertices → g.addVertex v = (.error (.duplicateVertex v), g)
  /-- There is a row of slots for each vertex. -/
  length_rows : g.rows.length = g.numVertices
  /-- Row `i` has a slot for vertex `i` and each vertex after it. -/
  size_row : ∀ i row, g.rows[i]? = some row → row.size = g.numVertices - i
  /-- The text consists of the lines of the vertices and those of the edges. -/
  toDot_eq : g.toDot =
    "graph \x7b\n" ++ String.join g.vertexLines ++ String.join g.edgeLines ++ "\x7d\n"
  /-- There are as many lines as edges. -/
  length_edgeLines : g.edgeLines.length = g.numEdges
  /-- Every pair of vertices with an edge has one line, and every other pair none. -/
  count_edgeLines : ∀ u v i j, g.vertices[i]? = some u → g.vertices[j]? = some v →
    g.edgeLines.count (edgeLine (min i j, max i j)) = if g.isAdjacent u v then 1 else 0

/-- A graph is the map from unordered pairs to labels that its steps write. -/
theorem ofSteps_recalls [ToString V] (steps : List (GraphStep V E)) :
    (ofSteps steps).Recalls steps := by
  have tabled := tabled_ofSteps steps
  have adjacent : ∀ u v, (ofSteps steps).isAdjacent u v = (lastLabel? steps s(u, v)).isSome := by
    intro u v
    rw [isAdjacent_eq, edge?_ofSteps]
  exact {
    vertices_eq := vertices_ofSteps steps
    getEdge_eq := by
      intro u v
      have answer := getEdge_eq (ofSteps steps) u v
      rw [edge?_ofSteps] at answer
      exact answer
    isAdjacent_eq := adjacent
    numEdges_eq := numEdges_ofSteps steps
    queries_of_mem := by
      intro v member
      simpa only [isAdjacent_eq] using tabled.queries_of_mem member
    queries_of_not_mem := fun _ missing => queries_of_not_mem missing
    addVertex_of_mem := fun _ member => if_pos member
    length_rows := tabled.length_rows
    size_row := fun _ _ found => tabled.size_row found
    toDot_eq := rfl
    length_edgeLines := by rw [edgeLines, List.length_map, tabled.numEdges_eq]
    count_edgeLines := by
      intro u v i j left right
      have nodup := tabled.nodup_vertices
      rw [count_edgeLine _ ((indexOf?_eq_some_iff nodup).mpr left)
        ((indexOf?_eq_some_iff nodup).mpr right), isAdjacent_eq] }

/-- A pair without a label is not always missed as an edge: the second vertex of this one was never
mentioned, and it is the vertex that is missed. -/
theorem getEdge_misses_vertex :
    lastLabel? [GraphStep.addVertex "a"] s("a", "b") = (none : Option String) ∧
      (ofSteps [GraphStep.addVertex "a"] : Graph String String).getEdge "a" "b" ≠
        .error (.edgeNotFound "a" "b") := by
  refine ⟨rfl, ?_⟩
  rw [getEdge_eq]
  decide

end Graph

end QuantumCircuit
