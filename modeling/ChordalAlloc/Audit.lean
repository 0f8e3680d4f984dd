/-
ChordalAlloc/Audit.lean

Checking an assignment of registers, whoever made it.  The first trouble
found is reported, and trouble is looked for in this order:

1. every variable has a register, and a parameter has that of its number;
2. everything that is read is set somewhere;
3. a phi and what it reads are in one register, so that it does nothing;
4. variables that interfere are in different registers.

Live sets and interference are computed afresh.
-/
import ChordalAlloc.Code.Check
import ChordalAlloc.Coloring
import ChordalAlloc.Interference

namespace ChordalAlloc

namespace Audit

/-- A variable has a color. -/
def hasColor (colors : Colors) (v : Var) : Except Error Unit :=
  if (colors[v]?).join.isSome then .ok () else .error (.defect (.noRegister v))

/-- A parameter has the color of its number. -/
def isPinned (colors : Colors) (v : Var) : Except Error Unit :=
  match (colors[v]?).join with
  | some c => if c = v then .ok () else .error (.defect (.movedParameter v c))
  | none => .error (.defect (.noRegister v))

/-- Every variable has a color, and every parameter has that of its number. -/
def places (p : Program) (params : Nat) (colors : Colors) : Except Error Unit := do
  if colors.size < p.vars.size then
    throw (.defect (.fewColors colors.size p.vars.size))
  -- colors beyond the table of variables do not matter
  (List.range p.vars.size).forM (hasColor colors)
  -- the number of parameters, the receiver included, has to be an index itself
  if p.vars.size ≤ params ∧ Space.lastIndex ≤ params then throw (.breach .size)
  (p.paramVars params).forM (isPinned colors)

/-- The variables that are set somewhere. -/
def defined (p : Program) (params : Nat) : IndexSet :=
  IndexSet.ofList p.vars.size (p.paramVars params ++ p.blocks.toList.flatMap (·.writes))

/-- A phi and what it reads have one color. -/
def phi (colors : Colors) (b : Block) (φ : Phi) : Except Error Unit :=
  φ.reads.forM fun v =>
    if (colors[v]?).join = (colors[φ.dst]?).join then .ok ()
    else .error (.defect (.otherRegister φ.dst b.label v))

/-- What can be checked without live sets. -/
def surface (p : Program) (params : Nat) (colors : Colors) : Except Error Unit := do
  places p params colors
  p.blocks.toList.forM (Check.reads (defined p params))
  p.blocks.toList.forM fun b => b.phis.forM (phi colors b)

end Audit

/-- The verdict on an assignment of registers. -/
structure Verdict where
  /-- The first trouble, if any. -/
  result : Except Error Unit
  /-- What was told on the way. -/
  events : List Event

/-- Check an assignment of registers to the variables of a program. -/
def Program.audit (p : Program) (params : Nat) (colors : Colors) : Verdict :=
  match Audit.surface p params colors with
  | .error e => ⟨.error e, []⟩
  | .ok () =>
    let found := p.analyse params false
    ⟨found.graph.checkColors colors, found.events⟩

end ChordalAlloc
