/-
ChordalAlloc/Proofs/Refinement.lean

What an edit of a program has to keep (`Program.Refines`): it leaves the
program well formed, changes nothing that can be observed, and makes nothing
live on entry that was not.  The last point stands for strictness: in a
program where every use is preceded by its definition nothing but the
parameters is live on entry (`Program.Entered`), and this is all that later
arguments need to know.

Edits are composed one after the other (`Refines.trans`).
-/
import ChordalAlloc.Proofs.Execution
import ChordalAlloc.Proofs.Liveness

namespace ChordalAlloc

namespace Program

/-- Only parameters are live on entry. -/
def Entered (p : Program) (n : Nat) : Prop := ∀ v, p.Live 0 0 v → v ≤ n

/-- The second program is fit to take the place of the first. -/
structure Refines (n : Nat) (p p' : Program) : Prop where
  wellFormed : p'.WellFormed n
  behavior : ∀ (w : World) (args : Fin (n + 1) → Int64),
    SameBehavior (p.run w id args) (p'.run w id args)
  entered : p.Entered n → p'.Entered n

namespace Refines

variable {n : Nat} {p q r : Program}

theorem refl (h : p.WellFormed n) : Refines n p p :=
  ⟨h, fun _ _ => SameBehavior.refl _, id⟩

theorem trans (hpq : Refines n p q) (hqr : Refines n q r) : Refines n p r where
  wellFormed := hqr.wellFormed
  behavior w args := (hpq.behavior w args).trans (hqr.behavior w args)
  entered h := hqr.entered (hpq.entered h)

end Refines

end Program

end ChordalAlloc
