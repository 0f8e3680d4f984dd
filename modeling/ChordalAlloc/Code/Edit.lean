/-
ChordalAlloc/Code/Edit.lean

Edits of a program: appending variables and blocks, and changing a block in
place.

A change of one block is a function on blocks; `Program.onBlock?` applies it
at a position.  Changes end in `?` when there may be nothing to change, and
then the program stays as it was.
-/
import ChordalAlloc.Code.Basic

namespace ChordalAlloc

/-! ### Blocks -/

namespace Block

/-- Append an instruction. -/
def push (b : Block) (i : Instr) : Block := { b with body := b.body ++ [i] }

/-- Take the last instruction off. -/
def pop? (b : Block) : Option (Instr × Block) :=
  b.body.getLast?.map fun i => (i, { b with body := b.body.dropLast })

/-- Put another instruction in the place of the one at a position. -/
def replace? (b : Block) (k : Nat) (i : Instr) : Option (Instr × Block) :=
  b.body[k]?.map fun old => (old, { b with body := b.body.set k i })

/-- The position right before the terminator, or the end of a block that has none. -/
def insertionPoint (b : Block) : Nat :=
  if b.terminator?.isSome then b.body.length - 1 else b.body.length

/-- Put an instruction right before the terminator. -/
def insertAtEnd (b : Block) (i : Instr) : Block :=
  { b with body := b.body.insertIdx b.insertionPoint i }

/-- Name the block `new` wherever the last instruction goes to `old`. -/
def redirect (b : Block) (old new : Label) : Block :=
  { b with body := b.body.modify (b.body.length - 1) (·.redirect old new) }

/-- Append a phi. -/
def addPhi (b : Block) (φ : Phi) : Block := { b with phis := b.phis ++ [φ] }

/-- Take the last phi off. -/
def popPhi? (b : Block) : Option (Phi × Block) :=
  b.phis.getLast?.map fun φ => (φ, { b with phis := b.phis.dropLast })

/-- Change the phi at a position. -/
def onPhi? {α : Type} (b : Block) (k : Nat) (f : Phi → Option (α × Phi)) : Option (α × Block) := do
  let φ ← b.phis[k]?
  let (a, φ) ← f φ
  return (a, { b with phis := b.phis.set k φ })

end Block

/-! ### Phis -/

namespace Phi

/-- Append an entry. -/
def addArg (φ : Phi) (a : PhiArg) : Phi := { φ with args := φ.args ++ [a] }

/-- Take the last entry off. -/
def popArg? (φ : Phi) : Option (PhiArg × Phi) :=
  φ.args.getLast?.map fun a => (a, { φ with args := φ.args.dropLast })

/-- Change the entry at a position, and show it as it is then. -/
def onArg? (φ : Phi) (k : Nat) (f : PhiArg → PhiArg) : Option (PhiArg × Phi) :=
  φ.args[k]?.map fun a => (f a, { φ with args := φ.args.set k (f a) })

end Phi

/-! ### Programs -/

namespace Program

/-- Append a variable, and name it. -/
def freshVar (p : Program) : Var × Program :=
  (p.vars.size, { p with vars := p.vars.push { id := p.vars.size } })

/-- Append a block with the given instructions, and name it. -/
def freshBlock (p : Program) (body : List Instr) : Label × Program :=
  (p.blocks.size, { p with blocks := p.blocks.push { label := p.blocks.size, body } })

/-- A program of `n` variables without blocks. -/
def withVars (n : Nat) : Program := { vars := (Array.range n).map fun i => { id := i } }

/-- Change the block at a position, if there is one. -/
def modifyBlock (p : Program) (b : Nat) (f : Block → Block) : Program :=
  { p with blocks := p.blocks.modify b f }

/-- Change the block at a position and hand on what the change answers. -/
def onBlock? {α : Type} (p : Program) (b : Nat) (f : Block → Option (α × Block)) :
    Option (α × Program) := do
  let (a, block) ← f (← p.blocks[b]?)
  return (a, { p with blocks := p.blocks.setIfInBounds b block })

/-- Change an entry of a phi, if there is one. -/
def onPhiArg? (p : Program) (block phi arg : Nat) (f : PhiArg → PhiArg) :
    Option (PhiArg × Program) :=
  p.onBlock? block fun b => b.onPhi? phi fun φ => φ.onArg? arg f

/-- Change the variable at a position. -/
def onVar? (p : Program) (v : Nat) (f : Variable → Variable) : Option Program :=
  if v < p.vars.size then some { p with vars := p.vars.modify v f } else none

/-- Exchange two entries of the table of variables, which keep their names; both have to exist. -/
def swapVars? (p : Program) (i j : Nat) : Option Program :=
  if i < p.vars.size ∧ j < p.vars.size then some { p with vars := p.vars.swapIfInBounds i j }
  else none

/-- Exchange two entries of the table of blocks, which keep their names; both have to exist. -/
def swapBlocks? (p : Program) (i j : Nat) : Option Program :=
  if i < p.blocks.size ∧ j < p.blocks.size then
    some { p with blocks := p.blocks.swapIfInBounds i j }
  else none

end Program

end ChordalAlloc
