/-
ChordalAlloc/Digraph/Basic.lean

Directed graphs given by lists of successors, exactly as a caller wrote
them: a list may repeat an entry, name the node itself, or name a node that
does not exist.
-/

namespace ChordalAlloc

/-- The successors of every node. -/
abbrev Digraph := Array (List Nat)

namespace Digraph

/-- The successors of a node, none for a node that does not exist. -/
def next (g : Digraph) (u : Nat) : List Nat := g.getD u []

/-- How a node is named in a report. -/
def nodeName (i : Nat) : String := s!"n{i}"

/-- How an edge is named in a report. -/
def edgeName (i : Nat) : String := s!"e{i}"

/-- How a node number shows in a dump of a structure. -/
def nodeTag (i : Nat) : String := s!"NodeId({i})"

/-- How an edge number shows in a dump of a structure. -/
def edgeTag (i : Nat) : String := s!"EdgeId({i})"

end Digraph

end ChordalAlloc
