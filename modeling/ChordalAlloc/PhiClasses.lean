/-
ChordalAlloc/PhiClasses.lean

Variables that have to share a register because phis tie them together: the
variable a phi sets and every variable it may read are in one class.
-/
import ChordalAlloc.Code.Basic
import ChordalAlloc.Partition

namespace ChordalAlloc

/-- Classes being gathered, and how many unions it took. -/
structure Gathering where
  /-- The classes so far. -/
  classes : Partition
  /-- How often two classes became one. -/
  unions : Nat := 0

/-- Put two variables into one class; a variable that does not exist is left out. -/
def Gathering.join (g : Gathering) (u v : Var) : Gathering :=
  if u < g.classes.size && v < g.classes.size && !g.classes.same u v then
    ⟨(g.classes.union u v).2, g.unions + 1⟩
  else g

/-- Put the variable a phi sets into one class with those it may read. -/
def Gathering.joinPhi (g : Gathering) (φ : Phi) : Gathering :=
  φ.reads.foldl (fun g v => g.join φ.dst v) g

/-- The classes that the phis of a program tie together. -/
def Program.phiClasses (p : Program) : Gathering :=
  (p.blocks.toList.flatMap (·.phis)).foldl Gathering.joinPhi
    { classes := Partition.discrete p.vars.size }

end ChordalAlloc
