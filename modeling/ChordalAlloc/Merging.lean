/-
ChordalAlloc/Merging.lean

Dropping copies.  A copy is needless if the variable it sets and the one it
reads may share a register.  The copies are tried once, in order: if the two
classes do not interfere they become one, and the copy goes away.  Where it
stood a `nop` stays, so that the positions of other copies stay true, and
the phi reads the copied variable again.

If the record of a copy does not fit the program the work stops where it is:
everything done before stays done, the union of its two classes included.
-/
import ChordalAlloc.Lowering
import ChordalAlloc.MergeGraph

namespace ChordalAlloc

/-- Copies being dropped. -/
structure Merging where
  /-- The program as it is now. -/
  program : Program
  /-- The classes as they are now. -/
  classes : Partition
  /-- Which classes interfere. -/
  graph : MergeGraph
  /-- How many copies were dropped. -/
  removed : Nat := 0
  /-- What was told so far. -/
  events : Array Event := #[]

namespace Merging

/-- Add to what was told. -/
def tell (m : Merging) (e : Event) : Merging := { m with events := m.events.push e }

/-- Drop a copy whose two variables are in one class. -/
def drop (m : Merging) (c : EdgeCopy) : Except (Stopped Merging) Merging :=
  let found := m.program.blocks[c.location]?.bind fun b => b.body[c.index]?
  if found ≠ some (.copy c.dst c.value) then
    .error ⟨.defect (.staleCopy c.dst c.value c.location c.index), m⟩
  else
    -- a `nop` keeps the positions of the copies further down
    let program := m.program.modifyBlock c.location fun b =>
      { b with body := b.body.set c.index .nop }
    let reading (a : PhiArg) : PhiArg := { a with value := c.value }
    match program.onPhiArg? c.site.block c.site.phi c.site.arg reading with
    | none => .error ⟨.noSuchBlock c.site.block, { m with program }⟩
    | some (_, program) =>
      .ok ({ m with program, removed := m.removed + 1 }.tell (.merged c.dst c.value))

/-- Make the classes named by two roots one, in the partition and in the graph. -/
def join (m : Merging) (source dest : Nat) (sourceNode destNode : Nat) : Merging :=
  let (root, classes) := m.classes.union source dest
  let graph :=
    if root = source then m.graph.merge sourceNode destNode root
    else m.graph.merge destNode sourceNode root
  { m with classes, graph }

/-- Try to drop a copy. -/
def step (m : Merging) (c : EdgeCopy) : Except (Stopped Merging) Merging :=
  if m.classes.size ≤ c.value ∨ m.classes.size ≤ c.dst then .error ⟨.breach .index, m⟩
  else
    let source := m.classes.root c.value
    let dest := m.classes.root c.dst
    if source = dest then m.drop c -- an earlier copy made them one
    else
      match m.graph.nodeOf? source, m.graph.nodeOf? dest with
      | some a, some b =>
        if m.graph.interferes a b then .ok (m.tell (.kept c.dst c.value))
        else (m.join source dest a b).drop c
      | _, _ => .ok m

end Merging

/-- Try to drop the given copies from a program, of which the interference graph and some
classes are known. -/
def Program.mergeCopies (p : Program) (copies : List EdgeCopy) (g : Graph) (classes : Partition) :
    Except (Stopped Merging) Merging := do
  let graph := MergeGraph.build g classes
  let start : Merging :=
    { program := p, classes, graph, events := #[.linked graph.nodeCount graph.linkCount] }
  let m ← copies.foldlM Merging.step start
  return m.tell (.mergedAll m.removed copies.length)

end ChordalAlloc
