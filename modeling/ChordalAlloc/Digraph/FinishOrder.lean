/-
ChordalAlloc/Digraph/FinishOrder.lean

The order in which a depth-first search leaves the nodes it reaches.

The search keeps an explicit stack of frames.  To enter a node is to mark
it, to note that it has to be left, and to put its unmarked successors on
top, first successor uppermost; so when the note comes up again, everything
below the node has been left.

The loop ends because every step either marks a node or shortens the stack.
-/
import ChordalAlloc.Digraph.Basic
import ChordalAlloc.IndexSet

namespace ChordalAlloc

namespace Digraph

/-- What the search still has to do. -/
inductive Frame where
  /-- Visit a node, unless it was visited meanwhile. -/
  | enter (node : Nat)
  /-- Everything below the node is done. -/
  | leave (node : Nat)
deriving DecidableEq, Repr

/-- Work off the stack; `done` holds the nodes left so far, latest first. -/
def finishLoop (g : Digraph) (seen : IndexSet) (stack : List Frame) (done : List Nat) : List Nat :=
  match stack with
  | [] => done.reverse
  | .leave u :: rest => finishLoop g seen rest (u :: done)
  | .enter u :: rest =>
    if h : u < seen.capacity ∧ seen.contains u = false then
      -- what is marked already would only be skipped later
      let fresh := (g.next u).filter fun v => v < g.size && !(seen.insert u).contains v
      finishLoop g (seen.insert u) (fresh.map .enter ++ .leave u :: rest) done
    else finishLoop g seen rest done
termination_by (seen.capacity - seen.size, stack.length)
decreasing_by
  · simp_wf
    right; omega
  · have hs := IndexSet.size_insert h.1 h.2
    have hle := (seen.insert u).size_le_capacity
    simp only [IndexSet.capacity_insert] at hle ⊢
    left; omega
  · simp_wf
    right; omega

/-- The nodes reachable from `start`, in the order in which a depth-first search that tries
successors in list order leaves them.  A start that does not exist reaches nothing. -/
def finishOrder (g : Digraph) (start : Nat) : List Nat :=
  finishLoop g (IndexSet.empty g.size) [.enter start] []

end Digraph

end ChordalAlloc
