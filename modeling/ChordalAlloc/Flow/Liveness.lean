/-
ChordalAlloc/Flow/Liveness.lean

Which variables are live where: a variable is live at a point if some way
from there reads it before setting it.

A block is summed up by the variables it reads before it sets them and the
variables it sets; a phi's operand is read on the edge it belongs to, at the
very end of the block that control comes from.  The live sets solve the
backward equations built from these summaries.

The summary of a block is looked up by the label the block carries.
-/
import ChordalAlloc.Flow.Equations

namespace ChordalAlloc

/-- What a block does to the variables that are live at its end. -/
structure Summary where
  /-- The variables read before the block sets them. -/
  exposed : IndexSet
  /-- The variables the block sets. -/
  written : IndexSet
deriving DecidableEq

/-- Extend the summary of a block by one more instruction at its end. -/
def Summary.step (s : Summary) (i : Instr) : Summary :=
  { exposed := (i.reads.filter fun v => !s.written.contains v).foldl IndexSet.insert s.exposed
    written := i.dst?.toList.foldl IndexSet.insert s.written }

/-- The summary of a block in a program of `n` variables; others are ignored.  The phis set
their variables before the first instruction. -/
def Block.summary (b : Block) (n : Nat) : Summary :=
  b.body.foldl Summary.step
    { exposed := IndexSet.empty n, written := IndexSet.ofList n (b.phis.map (·.dst)) }

/-- The phi operands of a block that exist, each with the block it comes from. -/
def Block.phiReads (b : Block) (n : Nat) : List (Label × Var) :=
  b.phis.flatMap fun φ => (φ.args.filter (·.value < n)).map fun a => (a.source, a.value)

/-- The summaries of all blocks, by position. -/
def Program.summaries (p : Program) : Array Summary := p.blocks.map (·.summary p.vars.size)

/-- The equations of the live sets. -/
def Program.liveEquations (p : Program) : Equations :=
  let n := p.vars.size
  let sums := p.summaries
  let named := p.blocks.map fun b =>
    sums.getD b.label { exposed := IndexSet.empty n, written := IndexSet.empty n }
  { boundary := IndexSet.empty n
    initial := IndexSet.empty n
    gen := named.map (·.exposed)
    kill := named.map (·.written)
    arrivals := p.blocks.map (·.phiReads n) }

/-- The variables live at both ends of every block. -/
def Program.liveness (p : Program) : Solution := p.liveEquations.solve p.flow

end ChordalAlloc
