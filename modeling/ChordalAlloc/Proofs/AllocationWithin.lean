/-
ChordalAlloc/Proofs/AllocationWithin.lean

Allocation without a request that has no answer.

The stages are put together once more, each with its checked tables, and a
request without an answer stops the whole as a breach (`Report.ask`,
`Program.allocateWithin`).  The stages that edit the program look up nothing
in vain as they are, since they report what is not there; all that they take
for granted is a place to put an instruction, which every block has
(`Block.insertAtEnd?_eq`).

No stage stops that way (`Program.Answered`), so the run is that of
`Program.allocate`.  With this, the check alone decides whether there are
registers (`Program.allocate_total`).
-/
import Mathlib.Data.Nat.PSub
import ChordalAlloc.Proofs.Acceptance
import ChordalAlloc.Proofs.Allocation
import ChordalAlloc.Proofs.ColoringWithin
import ChordalAlloc.Proofs.MergingWithin

namespace ChordalAlloc

/-- As `insertionPoint`, if there is an instruction to go back over. -/
def Block.insertionPoint? (b : Block) : Option Nat :=
  if b.terminator?.isSome then b.body.length.ppred else some b.body.length

/-- As `insertAtEnd`, at a position that exists, which is handed on. -/
def Block.insertAtEnd? (b : Block) (i : Instr) : Option (Nat × Block) := do
  let k ← b.insertionPoint?
  if k ≤ b.body.length then some (k, { b with body := b.body.insertIdx k i }) else none

/-- Go on with the answer to a request, and stop if there is none. -/
def Report.ask {α β : Type} (p : Program) (x : Option β) (f : β → Report α) : Report α :=
  match x with
  | some b => f b
  | none => .stop (.breach .index) p

/-! ### The stages, checked -/

namespace Program

/-- As `pinnedColors`, if the number of parameters, the receiver included, is an index. -/
def pinnedColorsWithin (p : Program) (params : Nat) : Option Colors :=
  if p.vars.size ≤ params ∧ Space.lastIndex ≤ params then none else some (p.pinnedColors params)

/-- As `audit`, with checked tables and sets. -/
def auditWithin (p : Program) (params : Nat) (colors : Colors) : Verdict :=
  match Audit.surface p params colors with
  | .error e => ⟨.error e, []⟩
  | .ok () =>
    match p.analyseWithin params false with
    | some found => ⟨found.graph.checkColors colors, found.events⟩
    | none => ⟨.error (.breach .index), []⟩

/-- As `review`, with checked tables and sets. -/
def reviewWithin (p : Program) (o : Options) (params : Nat) (colors : Colors) (parallel : Bool) :
    Verdict :=
  if o.verify then p.auditWithin params colors
  else ⟨.ok (), if parallel then [.unchecked p.blocks.size p.vars.size] else []⟩

end Program

namespace Lowering

/-- As `colorMerged`, with checked tables. -/
def colorMergedWithin (l : Lowering) (o : Options) (params : Nat) (g : Graph) (parallel : Bool)
    (m : Merging) : Report Allocation :=
  let p := m.program
  .ask p m.classes.packWithin fun packed =>
  .ask p (p.pinnedColorsWithin params) fun pinned =>
  match g.colorClassesWithin packed.1.toArray pinned with
  | .error s => .stop s.reason p
  | .ok c =>
    let verdict := p.reviewWithin o params c.colors parallel
    match verdict.result with
    | .error e => (Report.stop e p).after (c.event :: verdict.events)
    | .ok () => (l.settle m c).after (c.event :: verdict.events)

/-- As `mergeCopies`, with checked tables. -/
def mergeCopiesWithin (l : Lowering) (o : Options) (g : Graph) (classes : Partition) :
    Except (Stopped Merging) Merging :=
  if o.merge then l.program.mergeCopiesWithin l.copies.toList g classes
  else .ok { program := l.program, classes, graph := {} }

/-- As `allocate`, with checked tables and sets. -/
def allocateWithin (l : Lowering) (o : Options) (params : Nat) : Report Allocation :=
  let p := l.program
  let parallel := o.sideBySide p.blocks.size
  .ask p (p.analyseWithin params parallel) fun found =>
  .ask p p.phiClassesWithin fun gathered =>
  let told := .lowered l.copies.size l.saved l.splits :: found.events
    ++ [.gathered gathered.unions p.vars.size]
  match l.mergeCopiesWithin o found.graph gathered.classes with
  | .error s => (Report.stop s.reason s.state.program).after (told ++ s.state.events.toList)
  | .ok m => (l.colorMergedWithin o params found.graph parallel m).after (told ++ m.events.toList)

end Lowering

/-- As `allocate`, with checked tables and sets. -/
def Program.allocateWithin (p : Program) (o : Options) (params : Nat) : Report Allocation :=
  match p.checkWithin params with
  | .error e => .stop e p
  | .ok () =>
    let begun := .began p.blocks.size p.vars.size p.phiCount
    match p.lower with
    | .error s => (Report.stop s.reason s.state.program).after (begun :: s.state.events.toList)
    | .ok l => (l.allocateWithin o params).after (begun :: l.events.toList)

/-- As `audit`, with checked tables and sets. -/
def Allocation.auditWithin (a : Allocation) (p : Program) (params : Nat) : Verdict :=
  match p.restorePhis a.phis with
  | .error e => ⟨.error e, []⟩
  | .ok restored => restored.auditWithin params restored.registers.toArray

/-! ### Every request has its answer -/

/-- A block with a terminator is not empty. -/
theorem Block.insertionPoint?_eq (b : Block) : b.insertionPoint? = some b.insertionPoint := by
  unfold insertionPoint? insertionPoint
  split
  · next hterm =>
    have hpos : 0 < b.body.length := by
      apply List.length_pos_iff.2
      intro hnil
      simp [terminator?, hnil] at hterm
    exact Nat.ppred_eq_some.2 (Nat.succ_pred_eq_of_pos hpos)
  · rfl

theorem Block.insertAtEnd?_eq (b : Block) (i : Instr) :
    b.insertAtEnd? i = some (b.insertionPoint, b.insertAtEnd i) := by
  have hle : b.insertionPoint ≤ b.body.length := by
    unfold insertionPoint
    split <;> omega
  rw [insertAtEnd?, insertionPoint?_eq, Option.bind_eq_bind, Option.bind_some, if_pos hle]
  rfl

namespace Program

variable {p q : Program} {n : Nat}

/-- No stage that is given the program `q`, with parameters `0 .. n`, asks in vain: with checked
tables it answers what it answers without. -/
structure Answered (q : Program) (n : Nat) : Prop where
  /-- There is a place to put an instruction. -/
  inserted : ∀ block ∈ q.blocks, ∀ i,
    block.insertAtEnd? i = some (block.insertionPoint, block.insertAtEnd i)
  /-- The rows of edges exist. -/
  flow : q.flowWithin = some q.flow
  /-- All sets of the equations have the same capacity. -/
  equations : q.liveEquationsWithin = some q.liveEquations
  /-- The sets of a solution have it too, and the rounds suffice. -/
  liveness : q.livenessWithin = some q.liveness
  /-- The rows of the graph exist and have room. -/
  analysis : ∀ parallel, q.analyseWithin n parallel = some (q.analyse n parallel)
  /-- The links and ranks of the classes exist. -/
  classes : ∃ g, q.phiClassesWithin = some g ∧ q.phiClasses.Alike g
  /-- The tables of colors and flags have an entry for each class and each color. -/
  coloring : ∀ classes colors,
    (q.interference q.liveness n).colorClassesWithin classes colors =
      (q.interference q.liveness n).colorClasses classes colors

theorem Indexed.answered (hq : q.Indexed) (n : Nat) : q.Answered n where
  inserted block _ i := block.insertAtEnd?_eq i
  flow := q.flowWithin_eq
  equations := liveEquationsWithin_eq hq
  liveness := livenessWithin_eq hq
  analysis := analyseWithin_eq hq n
  classes := q.phiClassesWithin_eq
  coloring := Graph.colorClassesWithin_eq (sound_interference q n)

theorem pinnedColorsWithin_eq (hn : n < p.vars.size) :
    p.pinnedColorsWithin n = some (p.pinnedColors n) :=
  if_neg fun h => Nat.not_le_of_lt hn h.1

theorem auditWithin_eq (hp : p.Indexed) (n : Nat) (colors : Colors) :
    p.auditWithin n colors = p.audit n colors := by
  unfold auditWithin audit
  rcases Audit.surface p n colors with e | ⟨⟩
  · rfl
  · simp only [analyseWithin_eq hp]

theorem reviewWithin_eq (hp : p.Indexed) (o : Options) (n : Nat) (colors : Colors)
    (parallel : Bool) : p.reviewWithin o n colors parallel = p.review o n colors parallel := by
  unfold reviewWithin review
  rw [auditWithin_eq hp]

end Program

namespace Lowering

open Program

variable {p : Program} {n : Nat} {l : Lowering} {m : Merging} {g : Graph} {d : Partition}

/-- What is left after merging is colored without a breach; all that is asked of the classes is
their numbering. -/
theorem colorMergedWithin_eq (hg : g.Sound) (hq : m.program.WellFormed n) (hd : m.classes.Alike d)
    (l : Lowering) (o : Options) (parallel : Bool) :
    l.colorMergedWithin o n g parallel { m with classes := d } =
      l.colorMerged o n g parallel m := by
  simp only [colorMergedWithin, hd.pack, pinnedColorsWithin_eq hq.params, Report.ask,
    Graph.colorClassesWithin_eq hg, reviewWithin_eq hq.indexed]
  rfl

/-- The two ways of merging end in classes that are alike. -/
theorem mergeCopiesWithin_eq (h : Lowered p n l.program l.copies.toList)
    (hd : l.program.phiClasses.classes.Alike d) {o : Options}
    (hrun : l.mergeCopies o (l.program.interference l.program.liveness n)
      l.program.phiClasses.classes = .ok m) :
    ∃ d', l.mergeCopiesWithin o (l.program.interference l.program.liveness n) d =
      .ok { m with classes := d' } ∧ m.classes.Alike d' := by
  unfold mergeCopies at hrun
  unfold mergeCopiesWithin
  split at hrun
  · next ho =>
    rw [if_pos ho]
    exact Program.mergeCopiesWithin_eq (sound_interference l.program n) hd
      (fun e => h.fits h.merged.size) hrun
  · next ho =>
    rw [if_neg ho]
    cases hrun
    exact ⟨d, rfl, hd⟩

theorem allocateWithin_eq (h : Lowered p n l.program l.copies.toList) (o : Options) :
    l.allocateWithin o n = l.allocate o n := by
  obtain ⟨g, hclasses, halike⟩ := l.program.phiClassesWithin_eq
  obtain ⟨m, hmerge, hr, -⟩ := mergeCopies_spec h o.merge
  obtain ⟨d, hmerge', hd⟩ := mergeCopiesWithin_eq h halike.classes (hmerge o rfl)
  -- only the links of the classes differ, and nothing after merging looks at them
  simp only [allocateWithin, allocate, analyseWithin_eq h.refines.wellFormed.indexed, hclasses,
    Report.ask, Program.analyse, hmerge', hmerge o rfl, halike.unions,
    colorMergedWithin_eq (sound_interference l.program n) hr.wellFormed hd]

end Lowering

namespace Program

variable {p : Program} {n : Nat}

/-- **Allocation looks up nothing in vain.** -/
theorem allocateWithin_eq (hp : p.Indexed) (n : Nat) (o : Options) :
    p.allocateWithin o n = p.allocate o n := by
  unfold allocateWithin allocate
  rw [checkWithin_eq]
  rcases hcheck : p.check n with e | ⟨⟩
  · rfl
  obtain ⟨l, hlower, hl⟩ := lower_spec (wellFormed_of_check hp hcheck)
  simp only [hlower, Lowering.allocateWithin_eq hl]

theorem Allocated.auditWithin_eq {a : Allocation} {out q : Program} (h : Allocated p n a out q) :
    a.auditWithin out n = a.audit out n := by
  have hindexed : (q.setRegisters a.registers).Indexed := h.refines.wellFormed.indexed
  rw [Allocation.auditWithin, Allocation.audit, h.restorePhis]
  exact Program.auditWithin_eq hindexed n _

/-! ### The main result -/

/-- **The check alone decides whether there are registers.**  If it finds an error, that error
is the result and the program stays as it was.  If not, allocation succeeds, every variable of
the output has a register, no phi is left, and the audit of the output passes.  What is checked
or told besides does not change the result.

Nothing is looked up in vain on the way: with checked tables and sets the run is the same, and so
is every stage of it, and it never ends in a breach. -/
theorem allocate_total (p : Program) (hp : p.Indexed) (n : Nat) (o : Options) :
    (∀ e, (p.allocate o n).result = .error e ↔ p.check n = .error e) ∧
    (∀ e, p.check n = .error e → (p.allocate o n).program = p) ∧
    (p.check n = .ok () → ∃ a, (p.allocate o n).result = .ok a ∧
      (∀ v, v < (p.allocate o n).program.vars.size →
        ((p.allocate o n).program.register? v).isSome = true) ∧
      (∀ block ∈ (p.allocate o n).program.blocks, block.phis = []) ∧
      (a.audit (p.allocate o n).program n).result = .ok () ∧
      a.auditWithin (p.allocate o n).program n = a.audit (p.allocate o n).program n) ∧
    (∀ o' : Options, o'.merge = o.merge →
      (p.allocate o' n).result = (p.allocate o n).result ∧
        (p.allocate o' n).program = (p.allocate o n).program) ∧
    p.allocateWithin o n = p.allocate o n ∧ Safe (p.allocateWithin o n).result ∧
    ∀ q : Program, q.Indexed → q.Answered n := by
  rw [allocateWithin_eq hp]
  rcases hcheck : p.check n with e | ⟨⟩
  · have hsafe := p.safe_check n
    rw [hcheck] at hsafe
    rw [allocate_of_error hcheck]
    refine ⟨fun e' => ?_, fun _ _ => rfl, ?_, fun o' _ => ?_, rfl, ?_, fun q hq => hq.answered n⟩
    · rw [Report.stop, Except.error.injEq, Except.error.injEq]
    · rintro ⟨⟩
    · rw [allocate_of_error hcheck]
      exact ⟨rfl, rfl⟩
    · exact safe_error fun why he => hsafe why (congrArg _ he)
  · obtain ⟨a, out, q, ha, hrun⟩ := allocate_ok hp hcheck o.merge
    obtain ⟨hresult, hprogram⟩ := hrun o rfl
    rw [hresult, hprogram]
    refine ⟨fun e => ?_, ?_, fun _ => ?_, hrun, rfl, safe_ok a, fun q hq => hq.answered n⟩
    · constructor <;> rintro ⟨⟩
    · rintro e ⟨⟩
    · exact ⟨a, rfl, fun v => ha.isSome_register?, ha.phis_eq_nil, ha.audit, ha.auditWithin_eq⟩

theorem allocate_total_countUp : countUp.check 0 = .ok () ∧
    ∃ a, (countUp.allocateWithin {} 0).result = .ok a ∧
      (∀ block ∈ (countUp.allocate {} 0).program.blocks, block.phis = []) ∧
      (a.auditWithin (countUp.allocate {} 0).program 0).result = .ok () := by
  have hcheck : countUp.check 0 = .ok () := by decide +kernel
  obtain ⟨-, -, hok, -, hrun, -⟩ := allocate_total countUp indexed_countUp 0 {}
  obtain ⟨a, ha, -, hphis, haudit, hwithin⟩ := hok hcheck
  exact ⟨hcheck, a, hrun ▸ ha, hphis, hwithin ▸ haudit⟩

end Program

end ChordalAlloc
