/-
ChordalAlloc/Code/Text.lean

How code is written out.  A block is its label on a line of its own and
then, indented by two blanks, one line per phi and per instruction.  A
program is its blocks and, once a variable has a register, one more line
that lists the registers.
-/
import ChordalAlloc.Code.Basic

namespace ChordalAlloc

/-- Texts side by side, divided by a comma and a blank. -/
def commaText (parts : List String) : String := ", ".intercalate parts

/-- A variable is written as in `v3`. -/
def Var.text (v : Var) : String := s!"v{v}"

/-- A block is named as in `B3`. -/
def Label.text (b : Label) : String := s!"B{b}"

/-- An operator is written by its short name. -/
def BinOp.text : BinOp → String
  | add => "add"
  | sub => "sub"
  | mul => "mul"
  | div => "div"
  | rem => "rem"
  | and => "and"
  | or => "or"
  | xor => "xor"
  | shl => "shl"
  | shr => "shr"
  | eq => "eq"
  | lt => "lt"

/-- The left-hand side of an instruction that stores into `dst`. -/
def storeText (dst : Var) : String := s!"{Var.text dst} := "

/-- One line of code, without indentation. -/
def Instr.text : Instr → String
  | const d value => storeText d ++ toString value.toInt
  | copy d s => storeText d ++ Var.text s
  | binary op d a b => storeText d ++ s!"{op.text} {Var.text a}, {Var.text b}"
  | call d method args =>
    (d.map storeText).getD "" ++ s!"invoke {method}({commaText (args.map Var.text)})"
  | nop => "nop"
  | jump t => s!"goto {Label.text t}"
  | branch c t e => s!"if {Var.text c} goto {Label.text t} else {Label.text e}"
  | switch s ts d =>
    s!"switch {Var.text s} [{commaText (ts.map Label.text)}] default {Label.text d}"
  | ret none => "return"
  | ret (some v) => s!"return {Var.text v}"
  | raise v => s!"raise {Var.text v}"

/-- An entry of a phi, as in `v2 from B1`. -/
def PhiArg.text (a : PhiArg) : String := s!"{Var.text a.value} from {Label.text a.source}"

/-- A phi with all its entries. -/
def Phi.text (φ : Phi) : String := storeText φ.dst ++ s!"phi({commaText (φ.args.map PhiArg.text)})"

/-- A line of a block's text. -/
def indented (line : String) : String := s!"  {line}\n"

/-- The lines of a block. -/
def Block.text (b : Block) : String :=
  s!"{Label.text b.label}:\n"
    ++ String.join (b.phis.map fun φ => indented φ.text)
    ++ String.join (b.body.map fun i => indented i.text)

/-- The register of a variable, as in `v0=r2`, if it has one. -/
def Variable.registerText? (v : Variable) : Option String :=
  v.register.map fun r => s!"{Var.text v.id}=r{r}"

/-- The lines of a program. -/
def Program.text (p : Program) : String :=
  let assigned := p.vars.toList.filterMap (·.registerText?)
  String.join (p.blocks.toList.map Block.text)
    ++ if assigned.isEmpty then "" else "registers: " ++ " ".intercalate assigned ++ "\n"

end ChordalAlloc
