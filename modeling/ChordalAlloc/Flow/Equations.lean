/-
ChordalAlloc/Flow/Equations.lean

Backward flow equations over sets of facts.  With `in b` and `out b` the
facts at the top and at the end of a block `b`, they say

    in b  = (out b minus kill b) plus gen b
    out b = the union, over the successors s of b, of
              in s plus the facts that arrive in s from b
    out b = boundary, if b has no successor.

They are solved with a queue of blocks.  To visit a block is to evaluate its
two equations with what is known; when its `in` changes, its predecessors go
back into the queue.  Blocks that cannot be reached are solved too.

Facts do not influence each other, and each one starts the same at every
block: a fact of the `initial` set can only be withdrawn from an `in`, any
other can only be added.  So `in` sets change at most once per block and
fact, every change queues every block at most once, and `visitBound` visits
are enough.
-/
import ChordalAlloc.Flow

namespace ChordalAlloc

/-- Backward flow equations for the blocks of a program. -/
structure Equations where
  /-- The facts at the end of a block without successors. -/
  boundary : IndexSet
  /-- The facts assumed everywhere at the start. -/
  initial : IndexSet
  /-- The facts each block brings about. -/
  gen : Array IndexSet
  /-- The facts each block puts an end to. -/
  kill : Array IndexSet
  /-- For each block, the facts that come about on the way from a predecessor. -/
  arrivals : Array (List (Label × Nat))

/-- The facts at both ends of every block. -/
structure Solution where
  /-- The facts at the top of each block. -/
  ins : Array IndexSet
  /-- The facts at the end of each block. -/
  outs : Array IndexSet
  /-- How many visits it took. -/
  visits : Nat

namespace Equations

/-- Facts range below this bound. -/
def capacity (e : Equations) : Nat := e.initial.capacity

/-- The facts at the end of `source`, as far as `target` is concerned, given those at the top
of `target`. -/
def cross (e : Equations) (source target : Label) (facts : IndexSet) : IndexSet :=
  (e.arrivals.getD target []).foldl
    (fun s (src, fact) => if src = source then s.insert fact else s) facts

/-- The facts at the top of a block, given those at its end. -/
def through (e : Equations) (b : Label) (facts : IndexSet) : IndexSet :=
  (facts.diff (e.kill.getD b (IndexSet.empty e.capacity))).union
    (e.gen.getD b (IndexSet.empty e.capacity))

/-- The facts at the end of a block, given those at the top of every block. -/
def gather (e : Equations) (f : Flow) (ins : Array IndexSet) (b : Label) : IndexSet :=
  let arrive s := e.cross b s (ins.getD s e.initial)
  match f.succ b with
  | [] => e.boundary
  | s :: rest => rest.foldl (fun facts t => facts.union (arrive t)) (arrive s)

/-- A solution in progress. -/
structure Search where
  /-- What is known so far. -/
  known : Solution
  /-- The blocks to visit, each once, next one first. -/
  queue : List Label

/-- Put a block at the end of the queue, unless it waits already or does not exist. -/
def lineUp (n : Nat) (queue : List Label) (b : Label) : List Label :=
  if b < n && !queue.contains b then queue ++ [b] else queue

/-- Blocks without successors are known at their end; the queue holds the reachable blocks,
those that control reaches last first, and then all others. -/
def start (e : Equations) (f : Flow) : Search :=
  { known :=
      { ins := Array.replicate f.size e.initial
        outs := (Array.range f.size).map fun b =>
          if (f.succ b).isEmpty then e.boundary else e.initial
        visits := 0 }
    queue := (f.finishOrder ++ List.range f.size).foldl (lineUp f.size) [] }

/-- Evaluate the equations of a block that was taken from the queue, which goes on as `rest`. -/
def visit (e : Equations) (f : Flow) (k : Solution) (b : Label) (rest : List Label) : Search :=
  let out := e.gather f k.ins b
  let top := e.through b out
  { known :=
      { ins := k.ins.setIfInBounds b top
        outs := k.outs.setIfInBounds b out
        visits := k.visits + 1 }
    queue :=
      -- nothing that depends on this block can change unless its top does
      if k.ins.getD b e.initial = top then rest
      else (f.pred b).foldl (lineUp f.size) rest }

/-- Visit blocks, the given number of times or until the queue is empty. -/
def run (e : Equations) (f : Flow) : Nat → Search → Solution
  | 0, s => s.known
  | k + 1, s =>
    match s.queue with
    | [] => s.known
    | b :: rest => run e f k (e.visit f s.known b rest)

/-- Enough visits: one per block to start with, and one per block for every change of a fact
at the top of a block. -/
def visitBound (e : Equations) (f : Flow) : Nat := f.size + f.size * e.capacity * f.size

/-- The solution that keeps the facts of `initial` wherever the equations allow it, and has no
other fact unless the equations force it. -/
def solve (e : Equations) (f : Flow) : Solution := e.run f (e.visitBound f) (e.start f)

/-- Whether every block has its sets and the facts that arrive over an edge are in range. -/
def fits (e : Equations) (f : Flow) : Bool :=
  f.size ≤ e.gen.size && f.size ≤ e.kill.size &&
    (List.range f.size).all fun b =>
      (f.succ b).all fun s =>
        (e.arrivals.getD s []).all fun (source, fact) => source != b || fact < e.capacity

/-- As `solve`, for equations that fit the program. -/
def solve? (e : Equations) (f : Flow) : Option Solution :=
  if e.fits f then some (e.solve f) else none

/-- The arrivals given by triples of a source, a target and a fact, for `n` blocks. -/
def arrivalsOf (n : Nat) (edges : List (Label × Label × Nat)) : Array (List (Label × Nat)) :=
  (Array.range n).map fun t =>
    (edges.filter fun (_, target, _) => target = t).map fun (source, _, fact) => (source, fact)

end Equations

end ChordalAlloc
