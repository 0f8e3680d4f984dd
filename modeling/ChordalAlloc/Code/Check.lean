/-
ChordalAlloc/Code/Check.lean

Whether a program is fit for allocation.  The first trouble found is
reported, and trouble is looked for in this order:

1. there is an entry block, and the parameters exist;
2. every variable stands in its own slot and has no register;
3. block by block: the block ends in its only terminator, every operand
   exists, and nothing is set twice;
4. everything that is read is set somewhere;
5. the entry block has no phis, and every phi has exactly one entry for each
   predecessor of its block.
-/
import ChordalAlloc.Error
import ChordalAlloc.Flow

namespace ChordalAlloc

namespace Check

/-- The variable in a slot is the one that belongs there, and has no register yet. -/
def slot (v : Variable) (i : Nat) : Except Error Unit := do
  if v.id ≠ i then throw (.defect (.misplaced i v.id))
  if v.register.isSome then throw (.hasRegister v.id)

/-- A variable exists. -/
def var (n : Nat) (v : Var) : Except Error Unit :=
  if v < n then .ok () else .error (.noSuchVar v)

/-- A block exists. -/
def label (n : Nat) (b : Label) : Except Error Unit :=
  if b < n then .ok () else .error (.noSuchBlock b)

/-- A variable exists and is not set yet; from now on it is. -/
def setOnce (defined : IndexSet) (v : Var) : Except Error IndexSet := do
  var defined.capacity v
  if defined.contains v then throw (.defect (.redefined v))
  return defined.insert v

/-- The instruction at position `k` of a block: only the last one is a terminator, its
operands exist, and it sets something new. -/
def instr (b : Block) (blocks : Nat) (defined : IndexSet) (i : Instr) (k : Nat) :
    Except Error IndexSet := do
  if i.isTerminator && k + 1 != b.body.length then
    throw (.defect (.earlyTerminator b.label k))
  i.reads.forM (var defined.capacity)
  let defined ← i.dst?.toList.foldlM setOnce defined
  i.targets.forM (label blocks)
  return defined

/-- A phi sets something new, and its operands exist. -/
def phi (blocks : Nat) (defined : IndexSet) (φ : Phi) : Except Error IndexSet := do
  let defined ← setOnce defined φ.dst
  φ.args.forM fun a => do
    var defined.capacity a.value
    label blocks a.source
  return defined

/-- A block taken by itself, given what other blocks set. -/
def block (blocks : Nat) (defined : IndexSet) (b : Block) : Except Error IndexSet := do
  if b.terminator?.isNone then throw (.unterminated b.label)
  let defined ← b.body.zipIdx.foldlM (fun s (i, k) => instr b blocks s i k) defined
  b.phis.foldlM (phi blocks) defined

/-- Everything a block reads is set somewhere. -/
def reads (defined : IndexSet) (b : Block) : Except Error Unit :=
  b.reads.forM fun v =>
    if defined.contains v then .ok () else .error (.defect (.undefined b.label v))

/-- The entry at position `k` of a phi belongs to a predecessor and is the first to do so. -/
def phiArg (b : Block) (φ : Phi) (preds : List Label) (a : PhiArg) (k : Nat) :
    Except Error Unit := do
  if !preds.contains a.source then throw (.defect (.strangeSource φ.dst b.label a.source))
  if (φ.args.take k).any (·.source == a.source) then
    throw (.defect (.repeatedSource φ.dst b.label a.source))

/-- The entries of a phi are those of the predecessors of its block. -/
def phiArgs (b : Block) (preds : List Label) (φ : Phi) : Except Error Unit := do
  if φ.args.length ≠ preds.length then
    throw (.phiArgCount b.label φ.dst preds.length φ.args.length)
  φ.args.zipIdx.forM fun (a, k) => phiArg b φ preds a k

/-- The phis of a block fit the edges that lead to it. -/
def phis (f : Flow) (b : Block) : Except Error Unit := do
  if b.label = 0 ∧ !b.phis.isEmpty then throw (.defect (.entryPhis b.label))
  b.phis.forM (phiArgs b (f.pred b.label))

end Check

/-- Report the first trouble with a program whose parameters are the variables `0 .. params`. -/
def Program.check (p : Program) (params : Nat) : Except Error Unit := do
  if p.blocks.isEmpty then throw (.defect .noEntry)
  if p.vars.size ≤ params then throw (.noSuchVar params)
  p.vars.toList.zipIdx.forM fun (v, i) => Check.slot v i
  let entry := IndexSet.ofList p.vars.size (List.range (params + 1))
  let defined ← p.blocks.toList.foldlM (Check.block p.blocks.size) entry
  p.blocks.toList.forM (Check.reads defined)
  p.blocks.toList.forM (Check.phis p.flow)

end ChordalAlloc
