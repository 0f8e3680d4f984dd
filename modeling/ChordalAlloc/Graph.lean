/-
ChordalAlloc/Graph.lean

Undirected graphs without loops on the nodes `0 .. n-1`, as one set of
neighbours per node.  A graph depends on nothing but the unordered pairs
that were added: adding a pair again, or the other way round, or a loop, or
a pair with a node that does not exist, changes nothing.
-/
import ChordalAlloc.Digraph.Basic
import ChordalAlloc.IndexSet
import ChordalAlloc.Space

namespace ChordalAlloc

/-- An undirected graph. -/
structure Graph where
  /-- The neighbours of each node. -/
  rows : Array IndexSet
deriving DecidableEq

namespace Graph

/-- The graph of `n` nodes without edges. -/
def empty (n : Nat) : Graph := ⟨Array.replicate n (IndexSet.empty n)⟩

/-- As `empty`, as long as there can be a row for each node. -/
def empty? (n : Nat) : Option Graph := if Space.fits n Space.row then some (empty n) else none

/-- The number of nodes. -/
def size (g : Graph) : Nat := g.rows.size

/-- Join two different nodes that exist. -/
def addEdge (g : Graph) (a b : Nat) : Graph :=
  if a = b ∨ g.size ≤ a ∨ g.size ≤ b then g
  else ⟨(g.rows.modify a (·.insert b)).modify b (·.insert a)⟩

/-- Join all pairs of a list. -/
def addEdges (g : Graph) (pairs : List (Nat × Nat)) : Graph :=
  pairs.foldl (fun g (a, b) => g.addEdge a b) g

/-- Whether two nodes are joined. -/
def adjacent (g : Graph) (a b : Nat) : Bool := (g.rows.getD a (IndexSet.empty 0)).contains b

/-- The neighbours of a node, in ascending order. -/
def neighbors (g : Graph) (a : Nat) : List Nat := (g.rows.getD a (IndexSet.empty 0)).toList

/-- The number of neighbours of a node. -/
def degree (g : Graph) (a : Nat) : Nat := (g.rows.getD a (IndexSet.empty 0)).size

/-- The edges as pairs of the lower and the higher end, in ascending order. -/
def edges (g : Graph) : List (Nat × Nat) :=
  (List.range g.size).flatMap fun a => ((g.neighbors a).filter (a < ·)).map fun b => (a, b)

/-- The number of edges. -/
def edgeCount (g : Graph) : Nat := g.edges.length

/-- The neighbours of every node. -/
def toDigraph (g : Graph) : Digraph := g.rows.map (·.toList)

end Graph

end ChordalAlloc
