/-
ChordalAlloc/Flow.lean

Where control may go.  The edges of a program come from its terminators: a
block that names another one twice has one edge to it, and a name that no
block bears leads nowhere.

Successors are positions in the table of blocks.  Predecessors are given by
the labels the blocks carry.
-/
import ChordalAlloc.Code.Basic
import ChordalAlloc.Digraph.FinishOrder

namespace ChordalAlloc

/-- The edges between blocks, in both directions. -/
structure Flow where
  /-- The successors of each block, in operand order, each once. -/
  succs : Digraph
  /-- The labels of the predecessors of each block, in block order, each once. -/
  preds : Digraph
deriving DecidableEq, Repr

namespace Flow

/-- The number of blocks. -/
def size (f : Flow) : Nat := f.succs.size

/-- The successors of a block. -/
def succ (f : Flow) (b : Label) : List Label := f.succs.next b

/-- The predecessors of a block. -/
def pred (f : Flow) (b : Label) : List Label := f.preds.next b

/-- An edge is critical if it is neither the only way out nor the only way in. -/
def isCritical (f : Flow) (source target : Label) : Bool :=
  (f.succ source).length > 1 && (f.pred target).length > 1

/-- The blocks without successors. -/
def exits (f : Flow) : List Label := (List.range f.size).filter fun b => (f.succ b).isEmpty

/-- The blocks reachable from the entry, in the order in which a depth-first search leaves them. -/
def finishOrder (f : Flow) : List Label := f.succs.finishOrder 0

end Flow

/-- The blocks below `n` a block may go to, in operand order, each once. -/
def Block.succs (b : Block) (n : Nat) : List Label := (b.targets.filter (· < n)).eraseDups

theorem Block.mem_succs {b : Block} {n : Nat} {t : Label} :
    t ∈ b.succs n ↔ t ∈ b.targets ∧ t < n := by
  simp [Block.succs]

/-- The edges of a program. -/
def Program.flow (p : Program) : Flow :=
  let n := p.blocks.size
  { succs := p.blocks.map fun b => b.succs n
    preds := (Array.range n).map fun t =>
      (p.blocks.toList.filter fun b => (b.succs n).contains t).map (·.label) }

end ChordalAlloc
