/-
ChordalAlloc/Event.lean

What the allocator tells while it works.  An event says what happened; its
level says how much a reader may care, and its text is the line of the log.
-/
import ChordalAlloc.Error

namespace ChordalAlloc

/-- How much a reader may care. -/
inductive Level where
  | trace | debug | warn
deriving DecidableEq, Repr

/-- Something worth telling. -/
inductive Event where
  /-- The allocation of a method begins. -/
  | began (blocks vars phis : Nat)
  /-- The value of a phi's operand is saved, because another phi of the block sets it. -/
  | saved (block : Label) (dst value : Var) (location : Label)
  /-- A block was put on an edge. -/
  | split (source target edge : Label)
  /-- A phi's operand is copied. -/
  | copied (block : Label) (dst value : Var) (location : Label) (index : Nat)
  /-- All phis have their copies. -/
  | lowered (copies saved splits : Nat)
  /-- The live sets are known. -/
  | settled (visits blocks : Nat)
  /-- The interference graph is known. -/
  | interference (vars edges : Nat) (parallel : Bool)
  /-- Phis and their operands are gathered in classes. -/
  | gathered (unions vars : Nat)
  /-- The graph of classes is known. -/
  | linked (nodes edges : Nat)
  /-- A copy has to stay. -/
  | kept (dst value : Var)
  /-- A copy was dropped. -/
  | merged (dst value : Var)
  /-- Every copy was tried. -/
  | mergedAll (removed total : Nat)
  /-- Every class has a color. -/
  | colored (classes colors : Nat)
  /-- The result of a large method was not checked. -/
  | unchecked (blocks vars : Nat)
  /-- The allocation of a method is done. -/
  | allocated (registers removed total : Nat)
  /-- The allocation of a method gave up. -/
  | failed (method : String) (reason : Error)
deriving DecidableEq, Repr

namespace Event

/-- Single edits are for tracing, stages for debugging; what a user should know is a warning. -/
def level : Event → Level
  | saved .. | split .. | copied .. | settled .. | kept .. | merged .. => .trace
  | unchecked .. | failed .. => .warn
  | _ => .debug

/-- The line of the log. -/
def text : Event → String
  | began b v p => s!"allocating {b} blocks, {v} variables, {p} phis"
  | saved b d v l => s!"{Label.text b}: pre-copy {Var.text d} := {Var.text v} in {Label.text l}"
  | split s t e => s!"split edge {Label.text s} -> {Label.text t} through {Label.text e}"
  | copied b d v l k =>
    s!"{Label.text b}: copy {Var.text d} := {Var.text v} in {Label.text l}[{k}]"
  | lowered c p s => s!"phi elimination: {c} copies, {p} pre-copies, {s} blocks split"
  | settled n b => s!"liveness settled after {n} block visits over {b} blocks"
  | interference v e parallel =>
    s!"interference graph: {v} variables, {e} edges (parallel: {parallel})"
  | gathered u v => s!"congruence: {u} unions over {v} variables"
  | linked n e => s!"coalescing graph: {n} class nodes, {e} edges"
  | kept d v => s!"keeping {Var.text d} := {Var.text v}"
  | merged d v => s!"coalesced {Var.text d} := {Var.text v}"
  | mergedAll r n => s!"coalescing removed {r} of {n} copies"
  | colored k c => s!"colored {k} classes with {c} colors"
  | unchecked b v => s!"skipping verification of {b} blocks, {v} variables"
  | allocated r m n => s!"allocated {r} registers, {m} of {n} copies removed"
  | failed m e => s!"{m}: allocation failed: {e.heading}"

end Event

end ChordalAlloc
