/-
ChordalAlloc/Code/Assembly.lean

Putting a program together block by block.  The receiver and the parameters
are there from the start.  Blocks may be defined in any order and more than
once, in which case the last definition counts; a label that is skipped
becomes an empty block.

A block is written in `Draft`, a state of the variables made so far and the
block under way.
-/
import ChordalAlloc.Code.Edit
import ChordalAlloc.Space

namespace ChordalAlloc

/-- A block under way, in a program that may gain variables meanwhile. -/
structure Draft where
  /-- The program that owns the variables. -/
  program : Program
  /-- The block under way. -/
  block : Block

/-- Steps that write a block. -/
abbrev Drafting := StateM Draft

namespace Drafting

/-- Make a variable. -/
def fresh : Drafting Var := modifyGet fun d =>
  let (v, p) := d.program.freshVar
  (v, { d with program := p })

/-- Append an instruction. -/
def emit (i : Instr) : Drafting Unit := modify fun d => { d with block := d.block.push i }

/-- Append an instruction that stores into a variable made for it, and name the variable. -/
def emitNew (i : Var → Instr) : Drafting Var := do
  let v ← fresh
  emit (i v)
  return v

/-- Append a phi. -/
def phi (φ : Phi) : Drafting Unit := modify fun d => { d with block := d.block.addPhi φ }

/-- Append a phi that sets a variable made for it, and name the variable. -/
def phiNew (args : List PhiArg) : Drafting Var := do
  let v ← fresh
  phi ⟨v, args⟩
  return v

end Drafting

/-- A program being put together. -/
structure Assembly where
  /-- The number of declared parameters. -/
  params : Nat
  /-- Owns the variables made so far. -/
  program : Program
  /-- The blocks defined so far, latest first. -/
  defined : List (Label × Block) := []

namespace Assembly

/-- The receiver and `params` parameters, and nothing else. -/
def start (params : Nat) : Assembly := { params, program := Program.withVars (params + 1) }

/-- As `start`, as long as there can be a table of the receiver and the parameters. -/
def start? (params : Nat) : Option Assembly :=
  if Space.fits (params + 1) Space.index then some (start params) else none

/-- The variable of a parameter; parameter 0 is the receiver. -/
def param? (a : Assembly) (i : Nat) : Option Var := if i ≤ a.params then some i else none

/-- Make a variable. -/
def fresh (a : Assembly) : Var × Assembly :=
  let (v, p) := a.program.freshVar
  (v, { a with program := p })

/-- Define a block. -/
def block {α : Type} (a : Assembly) (label : Label) (write : Drafting α) : α × Assembly :=
  let (r, d) := write ⟨a.program, { label }⟩
  (r, { a with program := d.program, defined := (label, d.block) :: a.defined })

/-- One more than the largest label in use. -/
def blockCount (a : Assembly) : Nat := a.defined.foldl (fun n d => max n (d.1 + 1)) 0

/-- The finished program. -/
def finish (a : Assembly) : Program :=
  { a.program with
    blocks := (Array.range a.blockCount).map fun i =>
      (a.defined.lookup i).getD { label := i } }

end Assembly

end ChordalAlloc
