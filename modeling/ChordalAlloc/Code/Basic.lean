/-
ChordalAlloc/Code/Basic.lean

The code of one method in static single assignment form.

A program is a table of variables and a table of blocks.  A block starts
with phis, which are read together on entry according to the block that
control came from, and goes on with instructions, the last of which should
be a terminator.  Block 0 is the entry.  Variables `0 .. n` of a method with
`n` declared parameters are its receiver and its parameters.

Nothing here is checked: operands may name variables and blocks that do not
exist.  Tables are looked up by position.  Variables and blocks carry names
of their own besides, and it is for a check to find out whether a variable's
name is its position.
-/

namespace ChordalAlloc

/-- A variable, named by a number. -/
abbrev Var := Nat

/-- A block, named by a number. -/
abbrev Label := Nat

/-- The operators of two operands. -/
inductive BinOp where
  | add | sub | mul | div | rem | and | or | xor | shl | shr | eq | lt
deriving DecidableEq, Repr, Inhabited

/-- One instruction. -/
inductive Instr where
  /-- Store a constant. -/
  | const (dst : Var) (value : Int64)
  /-- Store the value of another variable. -/
  | copy (dst src : Var)
  /-- Store the result of an operator. -/
  | binary (op : BinOp) (dst first second : Var)
  /-- Call a method, and store what it gives back if anyone asks. -/
  | call (dst : Option Var) (method : String) (args : List Var)
  /-- Do nothing. -/
  | nop
  /-- Go to a block. -/
  | jump (target : Label)
  /-- Go to one of two blocks, the first one unless the condition is zero. -/
  | branch (cond : Var) (consequent alternative : Label)
  /-- Go to the block the selector counts to, or to the last one if it counts too far. -/
  | switch (selector : Var) (targets : List Label) (otherwise : Label)
  /-- Leave the method. -/
  | ret (value : Option Var)
  /-- Leave the method by raising a value. -/
  | raise (value : Var)
deriving DecidableEq, Repr, Inhabited

/-- The value a phi takes when control comes from one block. -/
structure PhiArg where
  /-- The block that control comes from. -/
  source : Label
  /-- The variable read then. -/
  value : Var
deriving DecidableEq, Repr, Inhabited

/-- A variable set on entry to a block, by where control comes from. -/
structure Phi where
  /-- The variable set. -/
  dst : Var
  /-- One entry per predecessor. -/
  args : List PhiArg
deriving DecidableEq, Repr, Inhabited

/-- A run of instructions entered at its top. -/
structure Block where
  /-- The name the block carries. -/
  label : Label
  /-- Read together on entry. -/
  phis : List Phi := []
  /-- Executed in order; the last one should be a terminator. -/
  body : List Instr := []
deriving DecidableEq, Repr, Inhabited

/-- An entry of the table of variables. -/
structure Variable where
  /-- The name the variable carries. -/
  id : Var
  /-- A name for readers. -/
  name : Option String := none
  /-- The register assigned to the variable. -/
  register : Option Nat := none
deriving DecidableEq, Repr, Inhabited

/-- The code of one method. -/
structure Program where
  /-- The table of variables. -/
  vars : Array Variable := #[]
  /-- The table of blocks; block 0 is the entry. -/
  blocks : Array Block := #[]
deriving DecidableEq, Repr, Inhabited

/-! ### Instructions -/

/-- The block to name in place of `t` when `new` takes the place of `old`. -/
def Label.redirect (t old new : Label) : Label := if t = old then new else t

namespace Instr

/-- The variable an instruction sets. -/
def dst? : Instr → Option Var
  | const d _ => some d
  | copy d _ => some d
  | binary _ d _ _ => some d
  | call d _ _ => d
  | _ => none

/-- The variables an instruction reads, in the order of its operands. -/
def reads : Instr → List Var
  | copy _ s => [s]
  | binary _ _ a b => [a, b]
  | call _ _ args => args
  | branch c _ _ => [c]
  | switch s _ _ => [s]
  | ret v => v.toList
  | raise v => [v]
  | _ => []

/-- The blocks an instruction may go to, in the order of its operands and with repeats. -/
def targets : Instr → List Label
  | jump t => [t]
  | branch _ t e => [t, e]
  | switch _ ts d => ts ++ [d]
  | _ => []

/-- Whether control never goes on to the next instruction. -/
def isTerminator : Instr → Bool
  | jump _ | branch _ _ _ | switch _ _ _ | ret _ | raise _ => true
  | _ => false

/-- Whether the instruction moves one variable into another. -/
def isCopy : Instr → Bool
  | copy _ _ => true
  | _ => false

/-- Name the block `new` wherever the instruction goes to `old`. -/
def redirect (old new : Label) : Instr → Instr
  | jump t => jump (t.redirect old new)
  | branch c t e => branch c (t.redirect old new) (e.redirect old new)
  | switch s ts d => switch s (ts.map (·.redirect old new)) (d.redirect old new)
  | i => i

/-! Redirecting touches targets only. -/

@[simp] theorem dst?_redirect (i : Instr) (old new : Label) :
    (i.redirect old new).dst? = i.dst? := by
  cases i <;> rfl

@[simp] theorem reads_redirect (i : Instr) (old new : Label) :
    (i.redirect old new).reads = i.reads := by
  cases i <;> rfl

@[simp] theorem isTerminator_redirect (i : Instr) (old new : Label) :
    (i.redirect old new).isTerminator = i.isTerminator := by
  cases i <;> rfl

@[simp] theorem targets_redirect (i : Instr) (old new : Label) :
    (i.redirect old new).targets = i.targets.map (·.redirect old new) := by
  cases i <;> simp [redirect, targets]

/-- Only a terminator goes anywhere. -/
theorem targets_eq_nil {i : Instr} (h : i.isTerminator = false) : i.targets = [] := by
  cases i <;> simp_all [isTerminator, targets]

end Instr

/-! ### Phis -/

namespace Phi

/-- The variables a phi may read. -/
def reads (φ : Phi) : List Var := φ.args.map (·.value)

/-- The entry for control that comes from `source`. -/
def argFrom? (φ : Phi) (source : Label) : Option PhiArg := φ.args.find? (·.source == source)

end Phi

/-! ### Blocks -/

namespace Block

/-- The last instruction, if it is a terminator. -/
def terminator? (b : Block) : Option Instr := b.body.getLast?.filter (·.isTerminator)

/-- The blocks that may follow, as the terminator names them. -/
def targets (b : Block) : List Label := (b.terminator?.map (·.targets)).getD []

/-- The variables read in a block: first by its phis, then by its instructions. -/
def reads (b : Block) : List Var := b.phis.flatMap (·.reads) ++ b.body.flatMap (·.reads)

/-- The variables set in a block: first by its phis, then by its instructions. -/
def writes (b : Block) : List Var := b.phis.map (·.dst) ++ b.body.filterMap (·.dst?)

end Block

/-! ### Programs -/

namespace Program

/-- The number of phis in all blocks. -/
def phiCount (p : Program) : Nat := p.blocks.foldl (fun count block => count + block.phis.length) 0

/-- The register of every variable, in table order. -/
def registers (p : Program) : List (Option Nat) := p.vars.toList.map (·.register)

/-- The entry of a phi in the block at a position. -/
def phiArg? (p : Program) (block phi arg : Nat) : Option PhiArg := do
  let b ← p.blocks[block]?
  let φ ← b.phis[phi]?
  φ.args[arg]?

end Program

end ChordalAlloc
