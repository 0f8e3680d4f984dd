/-
ChordalAlloc/MergeGraph.lean

The interference graph seen class by class, in a form that follows when two
classes become one.  There is a node per class and a link per pair of
classes of which members interfere.  A node lists the numbers of its links,
and a link names its two ends.

To merge two nodes is to hand all links of one over to the other.  Nodes and
links are never removed: an absorbed node keeps no links, and a link between
merged nodes becomes a loop, which counts for nothing.
-/
import ChordalAlloc.Graph
import ChordalAlloc.Partition

namespace ChordalAlloc

/-- A pair of nodes that interfere. -/
structure Link where
  /-- One end. -/
  fst : Nat
  /-- The other end. -/
  snd : Nat
deriving DecidableEq, Repr

namespace Link

/-- Whether both ends are the same node. -/
def isLoop (l : Link) : Bool := l.fst == l.snd

/-- The end that is not `a`. -/
def other (l : Link) (a : Nat) : Nat := if l.fst = a then l.snd else l.fst

/-- Name the node `new` at every end that is `old`. -/
def rename (old new : Nat) (l : Link) : Link :=
  ⟨if l.fst = old then new else l.fst, if l.snd = old then new else l.snd⟩

end Link

/-- The classes and which of them interfere. -/
structure MergeGraph where
  /-- The numbers of the links of each node. -/
  incident : Array (List Nat) := #[]
  /-- The ends of each link. -/
  links : Array Link := #[]
  /-- Pairs of a class, named by its root, and its node. -/
  nodes : List (Nat × Nat) := []
deriving DecidableEq, Repr

namespace MergeGraph

/-- The node of a class, named by its root. -/
def nodeOf? (m : MergeGraph) (root : Nat) : Option Nat := m.nodes.lookup root

/-- The number of nodes ever made. -/
def nodeCount (m : MergeGraph) : Nat := m.incident.size

/-- The number of links ever made. -/
def linkCount (m : MergeGraph) : Nat := m.links.size

/-- The links of a node that are not loops. -/
def linksOf (m : MergeGraph) (a : Nat) : List Link :=
  ((m.incident.getD a []).filterMap fun e => m.links[e]?).filter (!·.isLoop)

/-- The nodes that interfere with a node, each once, in the order of its links. -/
def neighbors (m : MergeGraph) (a : Nat) : List Nat :=
  ((m.linksOf a).map (·.other a)).eraseDups

/-- Whether two nodes interfere. -/
def interferes (m : MergeGraph) (a b : Nat) : Bool := (m.linksOf a).any (·.other a == b)

/-- The number of links of a node, loops included. -/
def degree (m : MergeGraph) (a : Nat) : Nat := (m.incident.getD a []).length

/-! ### Building -/

/-- Make a node for a class that has none. -/
def addClass (m : MergeGraph) (root : Nat) : MergeGraph :=
  if (m.nodeOf? root).isSome then m
  else { m with incident := m.incident.push [], nodes := (root, m.nodeCount) :: m.nodes }

/-- Whether two nodes, possibly the same, have a link in common. -/
def linked (m : MergeGraph) (a b : Nat) : Bool :=
  ((m.incident.getD a []).filterMap fun e => m.links[e]?).any fun l => l == ⟨a, b⟩ || l == ⟨b, a⟩

/-- Link two nodes, unless they are linked; a loop is listed once. -/
def addLink (m : MergeGraph) (a b : Nat) : MergeGraph :=
  if m.linked a b then m
  else
    let incident := m.incident.modify a (· ++ [m.linkCount])
    { m with
      links := m.links.push ⟨a, b⟩
      incident := if a = b then incident else incident.modify b (· ++ [m.linkCount]) }

/-- Link the nodes of the classes of two variables that interfere. -/
def addClash (c : Partition) (m : MergeGraph) (u v : Nat) : MergeGraph :=
  if u < c.size && v < c.size then
    match m.nodeOf? (c.root u), m.nodeOf? (c.root v) with
    | some a, some b => m.addLink a b
    | _, _ => m
  else m

/-- The classes of a partition, in the order in which they first appear, and which of them
interfere. -/
def build (g : Graph) (c : Partition) : MergeGraph :=
  let nodes := (List.range c.size).foldl (fun m v => m.addClass (c.root v)) ({} : MergeGraph)
  g.edges.foldl (fun m (u, v) => addClash c m u v) nodes

/-! ### Merging -/

/-- The list `es` followed by the elements of `moved` it lacks. -/
def handOver (es moved : List Nat) : List Nat :=
  moved.foldl (fun es e => if es.contains e then es else es ++ [e]) es

/-- Hand the links of `absorbed` over to `survivor`. -/
def moveLinks (m : MergeGraph) (survivor absorbed : Nat) : MergeGraph :=
  let moved := m.incident.getD absorbed []
  { m with
    links := moved.foldl (fun ls e => ls.modify e (·.rename absorbed survivor)) m.links
    incident := (m.incident.setIfInBounds absorbed []).modify survivor (handOver · moved) }

/-- Make `survivor` the node of the class named by `root`, with the links of `absorbed` added
to its own. -/
def merge (m : MergeGraph) (survivor absorbed root : Nat) : MergeGraph :=
  let m := if survivor = absorbed then m else m.moveLinks survivor absorbed
  -- no class is left with the absorbed node, and the merged class has one node
  { m with
    nodes := (root, survivor) :: m.nodes.filter fun (r, a) => a != absorbed && r != root }

/-- As `merge`, for nodes that exist as far as links have to move. -/
def merge? (m : MergeGraph) (survivor absorbed root : Nat) : Option MergeGraph :=
  let links? := m.incident[absorbed]?
  let able := survivor = absorbed ∨
    links?.isSome ∧ (survivor < m.nodeCount ∨ (links?.getD []).isEmpty)
  if able then some (m.merge survivor absorbed root) else none

end MergeGraph

end ChordalAlloc
