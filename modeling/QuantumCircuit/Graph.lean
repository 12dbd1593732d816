/-!
# Labelled undirected graphs

Vertices are numbered in the order in which they are first mentioned.  Labels are kept in rows, one
for each vertex: the row of a vertex has a slot for each pair that it forms with itself and with a
vertex after it, and the slot is empty where there is no edge.  Degrees and the number of edges are
counted along the way.
-/

namespace QuantumCircuit

/-- The causes for which a graph refuses a step or a query. -/
inductive GraphError (V : Type) where
  /-- A vertex that is there already. -/
  | duplicateVertex (v : V)
  /-- A vertex that is not there. -/
  | vertexNotFound (v : V)
  /-- A pair of vertices without an edge. -/
  | edgeNotFound (u v : V)
deriving DecidableEq, Repr

/-- The tag by which programs tell causes apart. -/
def GraphError.tag {V : Type} : GraphError V → String
  | .duplicateVertex _ => "DuplicateVertex"
  | .vertexNotFound _ => "VertexNotFound"
  | .edgeNotFound _ _ => "EdgeNotFound"

/-- The text of a cause. -/
def GraphError.message {V : Type} [ToString V] : GraphError V → String
  | .duplicateVertex v => "The vertex " ++ toString v ++ " is already in the graph"
  | .vertexNotFound v => "The vertex " ++ toString v ++ " is not in the graph"
  | .edgeNotFound u v => "The edge (" ++ toString u ++ ", " ++ toString v ++ ") does not exist"

/-- An undirected graph with labelled edges. -/
structure Graph (V E : Type) where
  /-- The vertices by number. -/
  vertices : List V
  /-- The slots: row `i` has that of `i` and `j` at position `j - i`, if `j` is not less than
  `i`. -/
  rows : List (Array (Option E))
  /-- The number of edges at each vertex; a loop counts once. -/
  degrees : List Nat
  /-- The number of edges. -/
  numEdges : Nat

namespace Graph

variable {V E : Type}

/-- The graph without vertices. -/
def empty : Graph V E :=
  ⟨[], [], [], 0⟩

instance : Inhabited (Graph V E) := ⟨empty⟩

/-- The number of vertices. -/
def numVertices (g : Graph V E) : Nat :=
  g.vertices.length

/-- The label of a pair of vertex numbers. -/
def label? (g : Graph V E) (i j : Nat) : Option E :=
  (g.rows[min i j]?).bind fun row => (row[max i j - min i j]?).join

/-- Puts a label on a pair of vertex numbers. -/
def setLabel (g : Graph V E) (i j : Nat) (label : E) : Graph V E :=
  { g with
    rows := g.rows.modify (min i j) (·.setIfInBounds (max i j - min i j) (some label)) }

/-- Adds a vertex that is not there yet: every row gets one more slot, and there is one more row. -/
def pushVertex (g : Graph V E) (v : V) : Graph V E :=
  { g with
    vertices := g.vertices ++ [v]
    rows := g.rows.map (·.push none) ++ [#[none]]
    degrees := g.degrees ++ [0] }

/-- Counts a new edge between two vertex numbers. -/
def countEdge (g : Graph V E) (i j : Nat) : Graph V E :=
  let degrees := g.degrees.modify i (· + 1)
  { g with
    degrees := if i = j then degrees else degrees.modify j (· + 1)
    numEdges := g.numEdges + 1 }

/-- Puts a label on a pair of vertex numbers, and counts the edge if it is new. -/
def relabel (g : Graph V E) (i j : Nat) (label : E) : Graph V E :=
  let counted := if (g.label? i j).isNone then g.countEdge i j else g
  counted.setLabel i j label

/-- The vertices that share an edge with the vertex of a number, by number. -/
def neighboursAt (g : Graph V E) (i : Nat) : List V :=
  (g.vertices.zipIdx.filter fun e => (g.label? i e.2).isSome).map (·.1)

variable [DecidableEq V]

/-- The number of a vertex. -/
def indexOf? (g : Graph V E) (v : V) : Option Nat :=
  g.vertices.findIdx? (· = v)

/-- The number of a vertex, or the error that it is not there. -/
def indexOf (g : Graph V E) (v : V) : Except (GraphError V) Nat :=
  match g.indexOf? v with
  | some i => .ok i
  | none => .error (.vertexNotFound v)

/-- Adds a vertex unless it is there. -/
def ensureVertex (g : Graph V E) (v : V) : Graph V E :=
  if v ∈ g.vertices then g else g.pushVertex v

/-- Adds a vertex, and fails if it is there.  The graph is returned in both cases. -/
@[inline]
def addVertex (g : Graph V E) (v : V) : Except (GraphError V) Unit × Graph V E :=
  if v ∈ g.vertices then (.error (.duplicateVertex v), g) else (.ok (), g.pushVertex v)

/-- Puts a label on the edge between two vertices, which are added if they are not there. -/
def addEdge (g : Graph V E) (u v : V) (label : E) : Graph V E :=
  let g := (g.ensureVertex u).ensureVertex v
  match g.indexOf? u, g.indexOf? v with
  | some i, some j => g.relabel i j label
  | _, _ => g

/-- The label of the edge between two vertices. -/
def getEdge (g : Graph V E) (u v : V) : Except (GraphError V) E := do
  let i ← g.indexOf u
  let j ← g.indexOf v
  match g.label? i j with
  | some label => .ok label
  | none => .error (.edgeNotFound u v)

/-- The vertices that share an edge with a vertex, by number. -/
def neighbours (g : Graph V E) (v : V) : Except (GraphError V) (List V) := do
  let i ← g.indexOf v
  .ok <| g.neighboursAt i

/-- The edges at a vertex, each as a pair with the vertex first. -/
def adjacentEdges (g : Graph V E) (v : V) : Except (GraphError V) (List (V × V)) := do
  let ws ← g.neighbours v
  .ok <| ws.map fun w => (v, w)

/-- The number of edges at a vertex; a loop counts once. -/
def degree (g : Graph V E) (v : V) : Except (GraphError V) Nat := do
  let i ← g.indexOf v
  .ok <| g.degrees.getD i 0

/-- Whether two vertices are there and share an edge. -/
def isAdjacent (g : Graph V E) (u v : V) : Bool :=
  match g.indexOf? u, g.indexOf? v with
  | some i, some j => (g.label? i j).isSome
  | _, _ => false

/-- Whether two edges share an end. -/
def edgesTouch (e f : V × V) : Bool :=
  e.1 = f.1 || e.1 = f.2 || e.2 = f.1 || e.2 = f.2

/-! ## Text -/

omit [DecidableEq V]

/-- The pairs of vertex numbers with an edge, row by row. -/
def edgeIndices (g : Graph V E) : List (Nat × Nat) :=
  g.rows.zipIdx.flatMap fun row =>
    (row.1.toList.zipIdx.filter (·.1.isSome)).map fun slot => (row.2, row.2 + slot.2)

/-- The line of a vertex and its number. -/
def vertexLine [ToString V] (e : V × Nat) : String :=
  "  " ++ toString e.2 ++ " [label=\"" ++ toString e.1 ++ "\"];\n"

/-- The line of an edge between two vertex numbers. -/
def edgeLine (e : Nat × Nat) : String :=
  "  " ++ toString e.1 ++ " -- " ++ toString e.2 ++ ";\n"

/-- The lines of all vertices. -/
def vertexLines [ToString V] (g : Graph V E) : List String :=
  g.vertices.zipIdx.map vertexLine

/-- The lines of all edges. -/
def edgeLines (g : Graph V E) : List String :=
  g.edgeIndices.map edgeLine

/-- The graph in the DOT language. -/
def toDot [ToString V] (g : Graph V E) : String :=
  "graph \x7b\n" ++ String.join g.vertexLines ++ String.join g.edgeLines ++ "\x7d\n"

end Graph

end QuantumCircuit
