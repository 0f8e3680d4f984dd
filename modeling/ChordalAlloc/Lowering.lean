/-
ChordalAlloc/Lowering.lean

Phis become copies.  For every entry of every phi a fresh variable is set by
a copy at the end of the block that control comes from, and the phi reads
the fresh variable.  Then a phi and its operands can share one register, and
the phi itself does nothing any more.

* A copy goes right before a plain jump.  If the source block ends in
  anything else, a block of its own is put on the edge, and all copies for
  this edge go there.
* An operand that another phi of the same block sets is saved in a variable
  of its own first, ahead of all copies, so that no copy reads a value that
  the phis were to read before.

Blocks are addressed by position.  If a source block does not exist, the
work stops where it is: everything done before stays done.
-/
import ChordalAlloc.Code.Edit
import ChordalAlloc.Event

namespace ChordalAlloc

/-- A place where a phi reads: an entry of a phi of a block. -/
structure Site where
  /-- The position of the block. -/
  block : Label
  /-- The position of the phi in the block. -/
  phi : Nat
  /-- The position of the entry in the phi. -/
  arg : Nat
deriving DecidableEq, Repr

/-- A copy that stands in for an entry of a phi. -/
structure EdgeCopy where
  /-- The entry that reads the copy. -/
  site : Site
  /-- The variable copied. -/
  value : Var
  /-- The variable set by the copy and read by the phi. -/
  dst : Var
  /-- The block that holds the copy. -/
  location : Label
  /-- The position of the copy in that block. -/
  index : Nat
deriving DecidableEq, Repr

/-- A program on its way. -/
structure Lowering where
  /-- The program as it is now. -/
  program : Program
  /-- The copies made, in order. -/
  copies : Array EdgeCopy := #[]
  /-- How many operands were saved first. -/
  saved : Nat := 0
  /-- How many edges got a block of their own. -/
  splits : Nat := 0
  /-- For the block in work: the sources whose edge got a block, each with that block. -/
  detours : List (Label × Label) := []
  /-- What was told so far. -/
  events : Array Event := #[]

/-- Where a copy was put. -/
structure Placed where
  /-- The variable set by the copy. -/
  dst : Var
  /-- The block that holds the copy. -/
  location : Label
  /-- The position of the copy in that block. -/
  index : Nat

namespace Lowering

/-- Add to what was told. -/
def tell (l : Lowering) (e : Event) : Lowering := { l with events := l.events.push e }

/-- Put a block that holds `copy` on the edge from `source` to `target`. -/
def splitEdge (l : Lowering) (source target : Label) (copy : Instr) : Lowering × Label :=
  let (edge, program) := l.program.freshBlock [copy, .jump target]
  let program := program.modifyBlock source (·.redirect target edge)
  let l := { l with program, detours := (source, edge) :: l.detours, splits := l.splits + 1 }
  (l.tell (.split source target edge), edge)

/-- Put a copy at the end of the way from `source` to `target`, and say where it is. -/
def putCopy (l : Lowering) (source target : Label) (copy : Instr) :
    Except Error (Lowering × Label × Nat) :=
  let location := (l.detours.lookup source).getD source
  match l.program.blocks[location]? with
  | none => .error (.noSuchBlock location)
  | some b =>
    match b.terminator? with
    | some (.jump _) =>
      -- the block leads nowhere else, so its end is the end of this way
      let program := l.program.modifyBlock location (·.insertAtEnd copy)
      .ok ({ l with program }, location, b.insertionPoint)
    | _ =>
      -- a copy here would run on the way to other blocks too
      let (l, edge) := l.splitEdge source target copy
      .ok (l, edge, 0)

/-- Make the entry at a site read a fresh variable, set by a copy of what it reads now. -/
def route (l : Lowering) (s : Site) (a : PhiArg) : Except (Stopped Lowering) (Lowering × Placed) :=
  let (dst, program) := l.program.freshVar
  -- the variable stays even if there is no block to put the copy in
  let l := { l with program }
  match l.putCopy a.source s.block (.copy dst a.value) with
  | .error e => .error ⟨e, l⟩
  | .ok (l, location, index) =>
    match l.program.onPhiArg? s.block s.phi s.arg fun _ => ⟨location, dst⟩ with
    | none => .error ⟨.noSuchBlock s.block, l⟩
    | some (_, program) => .ok ({ l with program }, ⟨dst, location, index⟩)

/-- Save the operand at a site if it is one of the variables `set` by the phis of the block. -/
def saveSite (set : List Var) (l : Lowering) (s : Site) :
    Except (Stopped Lowering) Lowering :=
  match l.program.phiArg? s.block s.phi s.arg with
  | none => .error ⟨.noSuchBlock s.block, l⟩
  | some a =>
    if set.contains a.value then do
      let (l, spot) ← l.route s a
      return { l with saved := l.saved + 1 }.tell (.saved s.block spot.dst a.value spot.location)
    else .ok l

/-- Copy the operand at a site. -/
def copySite (l : Lowering) (s : Site) : Except (Stopped Lowering) Lowering :=
  match l.program.phiArg? s.block s.phi s.arg with
  | none => .error ⟨.noSuchBlock s.block, l⟩
  | some a => do
    let (l, spot) ← l.route s a
    let copy : EdgeCopy := ⟨s, a.value, spot.dst, spot.location, spot.index⟩
    return { l with copies := l.copies.push copy }.tell
      (.copied s.block spot.dst a.value spot.location spot.index)

/-- The entries of the phis of a block, in order. -/
def sites (b : Label) (phis : List Phi) : List Site :=
  phis.zipIdx.flatMap fun (φ, k) => (List.range φ.args.length).map fun j => ⟨b, k, j⟩

/-- Lower the phis of a block: first save what has to be saved, then copy. -/
def lowerBlock (l : Lowering) (b : Label) : Except (Stopped Lowering) Lowering :=
  match l.program.blocks[b]? with
  | none => .error ⟨.noSuchBlock b, l⟩
  | some block => do
    -- lowering moves no entry of a phi, so the sites can be listed beforehand
    let ss := sites b block.phis
    let l ← ss.foldlM (saveSite (block.phis.map (·.dst))) { l with detours := [] }
    ss.foldlM copySite l

end Lowering

/-- Lower the phis of all blocks. -/
def Program.lower (p : Program) : Except (Stopped Lowering) Lowering :=
  (List.range p.blocks.size).foldlM Lowering.lowerBlock { program := p }

end ChordalAlloc
