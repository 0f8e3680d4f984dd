/-
ChordalAlloc/Allocation.lean

Registers for the variables of a method, from beginning to end:

1. the program is checked, and left alone if something is wrong with it;
2. phis become copies;
3. variables tied by phis form classes, and copies whose variables may share
   a register are dropped;
4. the classes are colored, parameters in the registers of their numbers;
5. unless the caller trusts it, the result is checked;
6. the registers are entered in the table of variables, and the phis, which
   do nothing any more, are taken out and kept beside the program.
-/
import ChordalAlloc.Audit
import ChordalAlloc.Merging
import ChordalAlloc.PhiClasses

namespace ChordalAlloc

/-! ### Options -/

/-- How to allocate. -/
structure Options where
  /-- Whether to drop copies. -/
  merge : Bool := true
  /-- Whether to check the result. -/
  verify : Bool := true
  /-- From how many blocks on to work on them side by side. -/
  parallelFrom : Nat := 64
deriving DecidableEq, Repr

namespace Options

/-- Trust the result. -/
def trusting : Options := { verify := false }

/-- Never work side by side. -/
def oneByOne : Options := { parallelFrom := Space.lastIndex }

/-- Keep all copies. -/
def keepingCopies : Options := { merge := false }

/-- Whether to work on the blocks side by side. -/
def sideBySide (o : Options) (blocks : Nat) : Bool := o.parallelFrom ≤ blocks

end Options

/-! ### Results -/

/-- What an allocation did. -/
structure Allocation where
  /-- The register of each variable. -/
  registers : List Nat := []
  /-- The number of registers in use. -/
  registerCount : Nat := 0
  /-- How many copies stood in for phi operands. -/
  copies : Nat := 0
  /-- How many copies saved an operand first. -/
  saved : Nat := 0
  /-- How many of the copies for operands were dropped again. -/
  removed : Nat := 0
  /-- How many edges got a block of their own. -/
  splits : Nat := 0
  /-- The phis taken out, each with the label of its block. -/
  phis : List (Label × Phi) := []
deriving DecidableEq, Repr

/-- How many copies are left. -/
def Allocation.remaining (a : Allocation) : Nat := a.copies + a.saved - a.removed

/-- How a run ended, the program as it left it, and what it told. -/
structure Report (α : Type) where
  /-- The result, or why there is none. -/
  result : Except Error α
  /-- The program afterwards. -/
  program : Program
  /-- What was told. -/
  events : List Event

namespace Report

/-- A run that stops where it is. -/
def stop {α : Type} (e : Error) (p : Program) : Report α := ⟨.error e, p, []⟩

/-- Put what was told before in front. -/
def after {α : Type} (events : List Event) (r : Report α) : Report α :=
  { r with events := events ++ r.events }

end Report

/-! ### The stages after lowering -/

namespace Program

/-- Enter registers in the table of variables. -/
def setRegisters (p : Program) (registers : List Nat) : Program :=
  { p with
    vars := p.vars.mapIdx fun i v =>
      match registers[i]? with
      | some r => { v with register := some r }
      | none => v }

/-- The phis of all blocks, each with the label of its block. -/
def labelledPhis (p : Program) : List (Label × Phi) :=
  p.blocks.toList.flatMap fun b => b.phis.map fun φ => (b.label, φ)

/-- The program without its phis. -/
def withoutPhis (p : Program) : Program :=
  { p with blocks := p.blocks.map fun b => { b with phis := [] } }

/-- Parameters come with the color of their number. -/
def pinnedColors (p : Program) (params : Nat) : Colors :=
  (Array.range p.vars.size).map fun v => if v ≤ params then some v else none

/-- The color of each variable, or the first variable without one. -/
def assigned (p : Program) (colors : Colors) : Except Error (List Nat) :=
  (p.vars.toList.zip colors.toList).mapM fun (v, c) =>
    match c with
    | some r => .ok r
    | none => .error (.defect (.uncolored v.id))

/-- Whether the result of coloring stands, as far as the options ask. -/
def review (p : Program) (o : Options) (params : Nat) (colors : Colors) (parallel : Bool) :
    Verdict :=
  if o.verify then p.audit params colors
  else ⟨.ok (), if parallel then [.unchecked p.blocks.size p.vars.size] else []⟩

end Program

namespace Lowering

/-- Enter the colors in the program and take the phis out. -/
def settle (l : Lowering) (m : Merging) (c : Coloring) : Report Allocation :=
  match m.program.assigned c.colors with
  | .error e => .stop e m.program
  | .ok registers =>
    { result := .ok
        { registers
          registerCount := c.used
          copies := l.copies.size
          saved := l.saved
          removed := m.removed
          splits := l.splits
          phis := m.program.labelledPhis }
      program := (m.program.setRegisters registers).withoutPhis
      events := [.allocated c.used m.removed l.copies.size] }

/-- Color the classes that are left after merging. -/
def colorMerged (l : Lowering) (o : Options) (params : Nat) (g : Graph) (parallel : Bool)
    (m : Merging) : Report Allocation :=
  let p := m.program
  match g.colorClasses m.classes.numbering.1.toArray (p.pinnedColors params) with
  | .error s => .stop s.reason p
  | .ok c =>
    let verdict := p.review o params c.colors parallel
    match verdict.result with
    | .error e => (Report.stop e p).after (c.event :: verdict.events)
    | .ok () => (l.settle m c).after (c.event :: verdict.events)

/-- Drop what copies can be dropped, if the options ask for it. -/
def mergeCopies (l : Lowering) (o : Options) (g : Graph) (classes : Partition) :
    Except (Stopped Merging) Merging :=
  if o.merge then l.program.mergeCopies l.copies.toList g classes
  else .ok { program := l.program, classes, graph := {} }

/-- Everything that follows lowering. -/
def allocate (l : Lowering) (o : Options) (params : Nat) : Report Allocation :=
  let p := l.program
  let parallel := o.sideBySide p.blocks.size
  let found := p.analyse params parallel
  let gathered := p.phiClasses
  let told := .lowered l.copies.size l.saved l.splits :: found.events
    ++ [.gathered gathered.unions p.vars.size]
  match l.mergeCopies o found.graph gathered.classes with
  | .error s => (Report.stop s.reason s.state.program).after (told ++ s.state.events.toList)
  | .ok m => (l.colorMerged o params found.graph parallel m).after (told ++ m.events.toList)

end Lowering

/-! ### Whole methods -/

/-- Assign registers to the variables of a program whose parameters are the variables
`0 .. params`. -/
def Program.allocate (p : Program) (o : Options) (params : Nat) : Report Allocation :=
  match p.check params with
  | .error e => .stop e p
  | .ok () =>
    let begun := .began p.blocks.size p.vars.size p.phiCount
    match p.lower with
    | .error s => (Report.stop s.reason s.state.program).after (begun :: s.state.events.toList)
    | .ok l => (l.allocate o params).after (begun :: l.events.toList)

/-- Put phis back into the blocks of their labels. -/
def Program.restorePhis (p : Program) (phis : List (Label × Phi)) : Except Error Program :=
  phis.foldlM
    (fun p (b, φ) =>
      if b < p.blocks.size then .ok (p.modifyBlock b (·.addPhi φ)) else .error (.noSuchBlock b))
    p

/-- Check the registers in the table of a program, with the phis of an allocation put back. -/
def Allocation.audit (a : Allocation) (p : Program) (params : Nat) : Verdict :=
  match p.restorePhis a.phis with
  | .error e => ⟨.error e, []⟩
  | .ok restored => restored.audit params restored.registers.toArray

/-- A method with its name. -/
structure Method where
  /-- The name, for the log. -/
  name : String
  /-- The number of declared parameters. -/
  params : Nat
  /-- The code. -/
  program : Program

/-- Allocate one of many methods; a failure is told. -/
def Method.allocate (m : Method) (o : Options) : Report Allocation :=
  let r := m.program.allocate o m.params
  match r.result with
  | .error e => { r with events := r.events ++ [.failed m.name e] }
  | .ok _ => r

end ChordalAlloc
