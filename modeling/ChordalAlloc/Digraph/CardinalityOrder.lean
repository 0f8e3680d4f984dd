/-
ChordalAlloc/Digraph/CardinalityOrder.lean

Maximum cardinality search: visit the nodes one by one, each time taking a
node that the nodes visited so far point to most often.  Ties go to the
smallest node.  The caller may name nodes to be visited first.

On a chordal graph the neighbours a node has among the earlier ones form a
clique, which is why colouring the nodes in this order needs no more colours
than the largest clique has nodes.
-/
import ChordalAlloc.Digraph.Basic

namespace ChordalAlloc

namespace Digraph

/-- A search in progress. -/
structure Sweep where
  /-- For each node that was not visited yet, how often the visited nodes point to it. -/
  weight : Array (Option Nat)
  /-- The nodes visited so far, latest first. -/
  visited : List Nat := []

/-- The search before its first visit. -/
def Sweep.start (g : Digraph) : Sweep :=
  { weight := Array.replicate g.size (some 0) }

/-- The weight of a node that exists and was not visited yet. -/
def Sweep.weight? (s : Sweep) (u : Nat) : Option Nat := s.weight[u]?.join

/-- Visit a node: each entry of its list adds one to the weight of the node it names. -/
def Sweep.visit (g : Digraph) (s : Sweep) (u : Nat) : Sweep :=
  { weight := (g.next u).foldl (fun w v => w.modify v (·.map (· + 1)))
      (s.weight.setIfInBounds u none)
    visited := u :: s.visited }

/-- Visit a node that exists and was not visited yet; leave the search alone otherwise. -/
def Sweep.visitNew (g : Digraph) (s : Sweep) (u : Nat) : Sweep :=
  if (s.weight? u).isSome then s.visit g u else s

/-- The better of the best node so far, given with its weight, and the candidate `u`, which is
larger than all before and so has to weigh more. -/
def Sweep.better (s : Sweep) (best : Option (Nat × Nat)) (u : Nat) : Option (Nat × Nat) :=
  match s.weight? u, best with
  | none, _ => best
  | some w, none => some (u, w)
  | some w, some (b, most) => if most < w then some (u, w) else some (b, most)

/-- The smallest of the heaviest nodes not visited yet. -/
def Sweep.heaviest (s : Sweep) : Option Nat :=
  ((List.range s.weight.size).foldl s.better none).map (·.1)

/-- Visit the heaviest node, the given number of times or until none is left. -/
def Sweep.run (g : Digraph) : Nat → Sweep → Sweep
  | 0, s => s
  | k + 1, s =>
    match s.heaviest with
    | none => s
    | some u => run g k (s.visit g u)

/-- All nodes in the order of a maximum cardinality search that starts with the nodes of
`first`, repeats and strangers left out. -/
def cardinalityOrder (g : Digraph) (first : List Nat) : List Nat :=
  (Sweep.run g g.size (first.foldl (Sweep.visitNew g) (Sweep.start g))).visited.reverse

end Digraph

end ChordalAlloc
