/-
ChordalAlloc/Error.lean

Why an operation gives up.  Three kinds of trouble are kept apart:

* a `Defect` is something wrong with a program or an assignment that only
  words can describe;
* the other errors name the offending parts;
* a `Breach` is a request that the structure asked has no answer for, such
  as an index beyond its end.  It says nothing about the program.

A computation that edits as it goes and stops half-way hands back what it
had done: see `Stopped`.
-/
import ChordalAlloc.Code.Text

namespace ChordalAlloc

/-- Something wrong with a program or an assignment. -/
inductive Defect where
  /-- There is no block to enter. -/
  | noEntry
  /-- A variable stands in a slot that is not its own. -/
  | misplaced (slot : Nat) (found : Var)
  /-- A terminator is followed by more instructions. -/
  | earlyTerminator (block : Label) (position : Nat)
  /-- A variable has two definitions. -/
  | redefined (v : Var)
  /-- A variable is read and has no definition. -/
  | undefined (block : Label) (v : Var)
  /-- The entry block has phis. -/
  | entryPhis (block : Label)
  /-- A phi has an entry for a block that cannot come before. -/
  | strangeSource (dst : Var) (block source : Label)
  /-- A phi has two entries for one block. -/
  | repeatedSource (dst : Var) (block source : Label)
  /-- A recorded copy is not where the record says. -/
  | staleCopy (dst value : Var) (block : Label) (position : Nat)
  /-- There are fewer colors than variables. -/
  | fewColors (given expected : Nat)
  /-- A variable has no register. -/
  | noRegister (v : Var)
  /-- A parameter is not in the register of its number. -/
  | movedParameter (v : Var) (color : Nat)
  /-- A phi reads a variable from a register other than its own. -/
  | otherRegister (dst : Var) (block : Label) (value : Var)
  /-- A variable got no color. -/
  | uncolored (v : Var)
deriving DecidableEq, Repr

/-- A request outside what a structure can answer. -/
inductive Breach where
  /-- An index beyond the end of a table. -/
  | index
  /-- A number that does not fit a machine word, or a table that does not fit the memory. -/
  | size
deriving DecidableEq, Repr

/-- Why an operation gives up. -/
inductive Error where
  /-- A defect of the program or the assignment. -/
  | defect (what : Defect)
  /-- A phi has too few or too many entries. -/
  | phiArgCount (block : Label) (dst : Var) (expected found : Nat)
  /-- A variable does not exist. -/
  | noSuchVar (index : Nat)
  /-- A block does not exist. -/
  | noSuchBlock (index : Nat)
  /-- A block does not end in a terminator. -/
  | unterminated (block : Label)
  /-- A variable has a register before registers are handed out. -/
  | hasRegister (v : Var)
  /-- Two variables that interfere have one color. -/
  | sharedColor (first second : Var) (color : Nat)
  /-- Two variables that interfere are in one class. -/
  | clashInClass (first second : Var)
  /-- Two members of a class have different colors beforehand. -/
  | twoColors (cls first second : Nat)
  /-- A request that has no answer. -/
  | breach (why : Breach)
deriving DecidableEq, Repr

/-- What a defect is called in a report. -/
def Defect.message : Defect → String
  | noEntry => "program has no entry block"
  | misplaced slot found => s!"variable table slot {slot} holds {Var.text found}"
  | earlyTerminator b k => s!"{Label.text b} has a terminator at {k} before its end"
  | redefined v => s!"{Var.text v} is defined more than once"
  | undefined b v => s!"{Label.text b} reads {Var.text v}, which is never defined"
  | entryPhis b => s!"entry block {Label.text b} carries phis"
  | strangeSource r b s =>
    s!"{Var.text r} in {Label.text b} reads from {Label.text s}, which is not a predecessor"
  | repeatedSource r b s =>
    s!"{Var.text r} in {Label.text b} has two incomings from {Label.text s}"
  | staleCopy d v b k =>
    s!"copy {Var.text d} := {Var.text v} not found at {Label.text b}[{k}]"
  | fewColors given expected => s!"{given} colors for {expected} variables"
  | noRegister v => s!"{Var.text v} has no register"
  | movedParameter v c => s!"parameter {Var.text v} moved to Some({c})"
  | otherRegister r b v =>
    s!"{Var.text r} in {Label.text b} reads {Var.text v} from a different register"
  | uncolored v => s!"{Var.text v} left uncolored"

namespace Error

/-- What an error is called in a report. -/
def message : Error → String
  | defect d => d.message
  | phiArgCount b r expected found =>
    s!"Phi {Var.text r} in {Label.text b} has {found} incomings, expected {expected}"
  | noSuchVar v => s!"Variable index {v} is out of range"
  | noSuchBlock b => s!"Block index {b} is out of range"
  | unterminated b => s!"Block {Label.text b} does not end in a terminator"
  | hasRegister v => s!"Variable {Var.text v} already has a register assigned"
  | sharedColor u v c =>
    s!"Interfering variables {Var.text u} and {Var.text v} share color {c}"
  | clashInClass u v =>
    s!"Congruence class joins interfering variables {Var.text u} and {Var.text v}"
  | twoColors k c d => s!"Class {k} is pre-colored with both {c} and {d}"
  | breach .index => "an index is out of range"
  | breach .size => "a number is too large"

/-- The message under the heading it has in a log. -/
def heading : Error → String
  | defect d => s!"Malformed - {d.message}"
  | e => e.message

end Error

/-- A computation that came to a halt: why, and the state it had reached. -/
structure Stopped (σ : Type) where
  /-- Why it stopped. -/
  reason : Error
  /-- What had been done by then. -/
  state : σ

end ChordalAlloc
