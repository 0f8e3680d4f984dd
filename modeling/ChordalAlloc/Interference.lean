/-
ChordalAlloc/Interference.lean

Which variables must not share a register.  Two variables interfere if one
is set at a point where the other one is live:

* an instruction sets a variable, and the other is live right after it;
* a phi sets a variable, and the other is set by another phi of the block or
  is live right after the phis;
* a parameter is set on entry, and the other is a parameter too or is live
  at the top of the entry block.

Within a block the live set is walked backwards from the end.
-/
import ChordalAlloc.Event
import ChordalAlloc.Flow.Liveness
import ChordalAlloc.Graph

namespace ChordalAlloc

/-! ### One block, from its end to its top -/

namespace Instr

/-- The variables live before an instruction, given those live after it. -/
def liveBefore (i : Instr) (after : IndexSet) : IndexSet :=
  i.reads.foldl IndexSet.insert (i.dst?.toList.foldl IndexSet.erase after)

/-- The variable an instruction sets, paired with each other variable live after it. -/
def clashes (i : Instr) (after : IndexSet) : List (Var × Var) :=
  i.dst?.toList.flatMap fun d => (after.toList.filter (· != d)).map fun v => (d, v)

end Instr

/-- The variables live before a run of instructions, given those live after it, and the pairs
that clash within. -/
def walkBack : List Instr → IndexSet → IndexSet × List (Var × Var)
  | [], after => (after, [])
  | i :: rest, after =>
    let (live, pairs) := walkBack rest after
    -- `live` is what is live right after `i`
    (i.liveBefore live, i.clashes live ++ pairs)

/-- The pairs that clash among variables set together while others are live. -/
def phiClashes (live : IndexSet) : List Var → List (Var × Var)
  | [] => []
  | d :: rest =>
    (live.toList.filter (· != d)).map (fun v => (d, v))
      ++ rest.map (fun e => (d, e))
      ++ phiClashes live rest

/-- The pairs that clash within a block, given the variables live at its end. -/
def Block.clashes (b : Block) (liveOut : IndexSet) : List (Var × Var) :=
  let (live, pairs) := walkBack b.body liveOut
  pairs ++ phiClashes live (b.phis.map (·.dst))

/-! ### A whole program -/

/-- What an interference analysis found, with what it told on the way. -/
structure Clashes where
  /-- The interference graph. -/
  graph : Graph
  /-- What was told. -/
  events : List Event

namespace Program

/-- The receiver and the parameters, as far as they exist. -/
def paramVars (p : Program) (params : Nat) : List Var := List.range (min (params + 1) p.vars.size)

/-- The pairs that clash within the blocks; live sets are looked up by label. -/
def blockClashes (p : Program) (live : Solution) : List (Var × Var) :=
  p.blocks.toList.flatMap fun b => (live.outs[b.label]?.map b.clashes).getD []

/-- The pairs that clash on entry.  Pairs of a parameter with itself are among them, which a
graph ignores. -/
def entryClashes (p : Program) (live : Solution) (params : Nat) : List (Var × Var) :=
  let ps := p.paramVars params
  let others := (live.ins[0]?.map (·.toList)).getD []
  ps.flatMap fun a => (ps ++ others).map fun b => (a, b)

/-- The interference graph of a program of which the live sets are known. -/
def interference (p : Program) (live : Solution) (params : Nat) : Graph :=
  (Graph.empty p.vars.size).addEdges (p.blockClashes live ++ p.entryClashes live params)

/-- Live sets and interference of a program.  Working on the blocks side by side or one after
the other gives the same graph, so `parallel` is only told. -/
def analyse (p : Program) (params : Nat) (parallel : Bool) : Clashes :=
  let live := p.liveness
  let graph := p.interference live params
  { graph
    events :=
      [.settled live.visits live.ins.size,
       .interference p.vars.size graph.edgeCount parallel] }

end Program

end ChordalAlloc
