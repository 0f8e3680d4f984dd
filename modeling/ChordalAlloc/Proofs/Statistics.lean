/-
ChordalAlloc/Proofs/Statistics.lean

The numbers that an allocation reports, against the code that comes out.

If an allocation succeeds, each of its stages did (`Program.Stages`), and what
comes out is the lowered program with some copies replaced by `nop`, which has
no phis any more.  So the numbers are those of the copies, variables and
blocks added and of the copies taken out, and nothing else happened to the
code (`Program.allocate_accounts`).  This holds of every program that passes
the check, also if its labels are not positions.
-/
import Mathlib.Data.List.Flatten
import ChordalAlloc.Proofs.Allocation
import ChordalAlloc.Proofs.Removal

namespace ChordalAlloc

open Program

variable {p : Program} {o : Options} {n : Nat} {a : Allocation} {l : Lowering} {m : Merging}
  {c : Coloring}

/-! ### The stages of an allocation -/

namespace Lowering

/-- The allocation `a` and the program `out` are put together from the stages. -/
structure Settled (l : Lowering) (m : Merging) (c : Coloring) (a : Allocation) (out : Program) :
    Prop where
  assigned : m.program.assigned c.colors = .ok a.registers
  registerCount : a.registerCount = c.used
  copies : a.copies = l.copies.size
  saved : a.saved = l.saved
  removed : a.removed = m.removed
  splits : a.splits = l.splits
  phis : a.phis = m.program.labelledPhis
  program : out = (m.program.setRegisters a.registers).withoutPhis

theorem settled_of_settle (ha : (l.settle m c).result = .ok a) :
    l.Settled m c a (l.settle m c).program := by
  unfold settle at ha ⊢
  rcases hrun : m.program.assigned c.colors with e | registers
  · rw [hrun] at ha
    cases ha
  · rw [hrun] at ha
    cases ha
    exact ⟨hrun, rfl, rfl, rfl, rfl, rfl, rfl, rfl⟩

theorem settled_of_colorMerged {g : Graph} {parallel : Bool}
    (ha : (l.colorMerged o n g parallel m).result = .ok a) :
    ∃ c, g.colorClasses m.classes.numbering.1.toArray (m.program.pinnedColors n) = .ok c ∧
      l.Settled m c a (l.colorMerged o n g parallel m).program := by
  unfold colorMerged at ha ⊢
  rcases hcolor : g.colorClasses m.classes.numbering.1.toArray (m.program.pinnedColors n) with e | c
  · simp only [hcolor] at ha
    cases ha
  simp only [hcolor] at ha ⊢
  rcases hreview : (m.program.review o n c.colors parallel).result with e | ⟨⟩
  · simp only [hreview] at ha
    cases ha
  · simp only [hreview, Report.result_after, Report.program_after] at ha ⊢
    exact ⟨c, rfl, settled_of_settle ha⟩

end Lowering

namespace Program

/-- An allocation with the result `a`, stage by stage. -/
structure Stages (p : Program) (o : Options) (n : Nat) (a : Allocation) (l : Lowering)
    (m : Merging) (c : Coloring) : Prop extends l.Settled m c a (p.allocate o n).program where
  check : p.check n = .ok ()
  lower : p.lower = .ok l
  merge : l.mergeCopies o (l.program.interference l.program.liveness n)
    l.program.phiClasses.classes = .ok m
  color : (l.program.interference l.program.liveness n).colorClasses
    m.classes.numbering.1.toArray (m.program.pinnedColors n) = .ok c

/-- If an allocation succeeds, every stage did. -/
theorem exists_stages (ha : (p.allocate o n).result = .ok a) : ∃ l m c, Stages p o n a l m c := by
  rcases hcheck : p.check n with e | ⟨⟩
  · simp only [allocate, hcheck] at ha
    cases ha
  rcases hlower : p.lower with e | l
  · simp only [allocate, hcheck, hlower] at ha
    cases ha
  rcases hmerge : l.mergeCopies o (l.program.interference l.program.liveness n)
    l.program.phiClasses.classes with e | m
  · simp only [allocate, hcheck, hlower, Lowering.allocate, analyse, hmerge] at ha
    cases ha
  have hrun : (p.allocate o n).result = (l.colorMerged o n
      (l.program.interference l.program.liveness n) (o.sideBySide l.program.blocks.size) m).result ∧
      (p.allocate o n).program = (l.colorMerged o n (l.program.interference l.program.liveness n)
        (o.sideBySide l.program.blocks.size) m).program := by
    simp only [allocate, hcheck, hlower, Lowering.allocate, analyse, hmerge, Report.result_after,
      Report.program_after, and_self]
  obtain ⟨c, hcolor, hsettled⟩ := Lowering.settled_of_colorMerged (hrun.1.symm.trans ha)
  exact ⟨l, m, c, hrun.2 ▸ hsettled, hcheck, hlower, hmerge, hcolor⟩

/-! ### What the check says of operands and copies -/

theorem value_lt_of_check (hcheck : p.check n = .ok ()) {s : Site} {x : PhiArg}
    (hx : p.argAt? s = some x) : x.value < p.vars.size := by
  obtain ⟨-, -, -, -, -, hblocks⟩ := check_eq_ok hcheck
  obtain ⟨φ, hφ, hx⟩ := phi_of_site hx
  have hφ := List.mem_of_getElem? hφ
  obtain ⟨block, hb⟩ := exists_block (lt_size_of_phis hφ)
  rw [phis_of hb] at hφ
  exact ((hblocks block (mem_blocks hb)).1.phis φ hφ).reads x.value
    (List.mem_map_of_mem (List.mem_of_getElem? hx))

/-- What a program defines is in its table. -/
theorem not_setsNew_of_check (hcheck : p.check n = .ok ()) {b : Label} {i : Instr}
    (hi : i ∈ p.body b) : ¬ i.SetsNew p.vars.size := by
  rintro ⟨x, y, rfl, hx⟩
  obtain ⟨-, -, -, -, hlt, -⟩ := check_eq_ok hcheck
  obtain ⟨k, hk⟩ := List.mem_iff_getElem?.1 hi
  exact Nat.not_lt_of_le hx (hlt x (mem_definitions_iff.2 ⟨.instr b k, _, hk, rfl⟩))

namespace Stages

variable (h : Stages p o n a l m c)

include h

/-- Lowering kept its books. -/
theorem account : l.Account p :=
  Lowering.account_lower (fun _ _ => value_lt_of_check h.check) h.lower

/-- Merging did, too. -/
theorem removed_spec : l.program.phiClasses.classes.Grows m.classes ∧
    ∃ es, Removed p.vars.size l.program es m.program ∧ es.length = m.removed ∧
      es.Sublist l.copies.toList ∧ (∀ e ∈ es, m.classes.root e.value = m.classes.root e.dst) ∧
      (o.merge = false → es = []) := by
  have hties := l.program.ties_phiClasses
  exact Lowering.removed_mergeCopies h.account (sound_interference _ _) hties.forest hties.size
    h.merge

theorem body_eq (b : Label) : (p.allocate o n).program.body b = m.program.body b := by
  rw [h.program]
  exact body_withoutPhis b

theorem size_eq : (p.allocate o n).program.blocks.size = m.program.blocks.size := by
  rw [h.program]
  exact Array.size_map

end Stages

/-! ### The code -/

end Program

theorem forall₂_append_left {α β : Type} {R : α → β → Prop} {l₁ l₂ : List α} {l : List β}
    (h : List.Forall₂ R (l₁ ++ l₂) l) :
    ∃ m₁ m₂, l = m₁ ++ m₂ ∧ List.Forall₂ R l₁ m₁ ∧ List.Forall₂ R l₂ m₂ := by
  refine ⟨l.take l₁.length, l.drop l₁.length, (List.take_append_drop _ _).symm, ?_, ?_⟩
  · simpa using List.forall₂_take l₁.length h
  · simpa using List.forall₂_drop l₁.length h

/-- Where nothing copies to a new variable, nothing is gone. -/
theorem eq_of_blanked {n : Nat} {is js : List Instr}
    (h : List.Forall₂ (Instr.Blanked n) is js) (his : ∀ i ∈ is, ¬ i.SetsNew n) : js = is := by
  induction h with
  | nil => rfl
  | cons hij _ ih =>
    rw [List.forall_mem_cons] at his
    rcases hij with rfl | ⟨hnew, -⟩
    · rw [ih his.2]
    · exact absurd hnew his.1

namespace Program

/-- What became of a block of `p`.  In `q` there are copies to new variables before its last
instruction, which may go to appended blocks instead, and in `out` some of the copies are gone.
Nothing else in the block copies to a new variable. -/
def KeepsBlock (p q out : Program) (b : Label) : Prop :=
  ∃ init t f code kept, p.body b = init ++ [t] ∧
    q.body b = init ++ code ++ [t.reroute f] ∧ out.body b = init ++ kept ++ [t.reroute f] ∧
    (∀ i ∈ p.body b, ¬ i.SetsNew p.vars.size) ∧ (∀ i ∈ code, i.SetsNew p.vars.size) ∧
    List.Forall₂ (Instr.Blanked p.vars.size) code kept ∧
    ∀ x, f x = x ∨ p.blocks.size ≤ f x ∧ f x < out.blocks.size

/-- What is in an appended block: copies to new variables, of which some are gone in `out`, and a
jump. -/
def AddsBlock (p q out : Program) (b : Label) : Prop :=
  ∃ x code kept, q.body b = code ++ [.jump x] ∧ out.body b = kept ++ [.jump x] ∧
    (∀ i ∈ code, i.SetsNew p.vars.size) ∧ List.Forall₂ (Instr.Blanked p.vars.size) code kept

/-- The last instruction of a block does not copy. -/
theorem eq_of_blanked_terminator {t : Instr} (ht : t.isTerminator = true) {js : List Instr}
    (h : List.Forall₂ (Instr.Blanked n) [t] js) : js = [t] := by
  refine eq_of_blanked h fun i hi => ?_
  rw [List.mem_singleton.1 hi]
  rintro ⟨x, y, rfl, -⟩
  cases ht

namespace Stages

variable (h : Stages p o n a l m c)

include h

theorem keepsBlock {b : Label} (hb : b < p.blocks.size) :
    p.KeepsBlock l.program (p.allocate o n).program b := by
  obtain ⟨-, -, -, -, -, hblocks⟩ := check_eq_ok h.check
  obtain ⟨block, hblock⟩ := exists_block hb
  obtain ⟨init, t, hbody, ht, -⟩ := closed_of_blockOk (hblocks block (mem_blocks hblock)).1
  rw [← body_of hblock] at hbody
  obtain ⟨code, f, hq, hcode, hf⟩ := h.account.added.old b init t hbody
  obtain ⟨-, es, hes, -⟩ := h.removed_spec
  -- the three parts of the block, of which the middle one may have changed
  have hparts := hes.body b
  rw [hq] at hparts
  obtain ⟨front, last, hm, hfront, hlast⟩ := forall₂_append_left hparts
  obtain ⟨init', kept, rfl, hinit, hkept⟩ := forall₂_append_left hfront
  have hold : ∀ i ∈ p.body b, ¬ i.SetsNew p.vars.size := fun i => not_setsNew_of_check h.check
  rw [eq_of_blanked_terminator (by rw [Instr.isTerminator_reroute, ht]) hlast,
    eq_of_blanked hinit fun i hi => hold i (hbody ▸ List.mem_append_left _ hi)] at hm
  refine ⟨init, t, f, code, kept, hbody, hq, (h.body_eq b).trans hm, hold, hcode, hkept, ?_⟩
  rw [h.size_eq, hes.size]
  exact hf

theorem addsBlock {b : Label} (hge : p.blocks.size ≤ b)
    (hlt : b < (p.allocate o n).program.blocks.size) :
    p.AddsBlock l.program (p.allocate o n).program b := by
  obtain ⟨-, es, hes, -⟩ := h.removed_spec
  rw [h.size_eq, hes.size] at hlt
  obtain ⟨code, x, hq, hcode⟩ := h.account.added.new b hge hlt
  have hparts := hes.body b
  rw [hq] at hparts
  obtain ⟨kept, last, hm, hkept, hlast⟩ := forall₂_append_left hparts
  rw [eq_of_blanked_terminator rfl hlast] at hm
  exact ⟨x, code, kept, hq, (h.body_eq b).trans hm, hcode, hkept⟩

theorem count_eq (kind : Instr → Bool) :
    (p.allocate o n).program.count kind = m.program.count kind :=
  count_congr h.size_eq fun b => by rw [h.body_eq]

end Stages

/-! ### The phis -/

/-- What the phis of a program set, each with the label of its block. -/
def labelledReceivers (p : Program) : List (Label × Var) :=
  p.labelledPhis.map fun x => (x.1, x.2.dst)

theorem labelledReceivers_eq (q : Program) : q.labelledReceivers =
    (List.range q.blocks.size).flatMap fun b =>
      (q.receivers b).map fun v => ((q.label? b).getD b, v) := by
  rw [labelledReceivers, labelledPhis, List.map_flatMap, List.flatMap_def, map_blocks,
    ← List.flatMap_def]
  intro b block hb
  rw [label?, hb, receivers, phis_of hb, List.map_map, List.map_map]
  rfl

/-- Blocks without phis at the end do not matter. -/
theorem labelledReceivers_congr {q : Program} {k : Nat} (hsize : q.blocks.size = p.blocks.size + k)
    (hlabels : ∀ b, b < p.blocks.size → q.label? b = p.label? b)
    (hreceivers : ∀ b, q.receivers b = p.receivers b) :
    q.labelledReceivers = p.labelledReceivers := by
  rw [labelledReceivers_eq, labelledReceivers_eq, hsize, List.range_add, List.flatMap_append]
  have hnew : ((List.range k).map (p.blocks.size + ·)).flatMap (fun b =>
      (q.receivers b).map fun v => ((q.label? b).getD b, v)) = [] := by
    rw [List.flatMap_eq_nil_iff]
    intro b hb
    obtain ⟨j, -, rfl⟩ := List.mem_map.1 hb
    rw [hreceivers, receivers, phis_of_le (Nat.le_add_right _ _)]
    rfl
  rw [hnew, List.append_nil]
  refine List.flatMap_congr fun b hb => ?_
  rw [hlabels b (List.mem_range.1 hb), hreceivers]

/-- Every phi sets a variable of its own. -/
theorem nodup_labelledReceivers (hcheck : p.check n = .ok ()) :
    (p.labelledReceivers.map (·.2)).Nodup := by
  obtain ⟨-, -, -, hnodup, -, -⟩ := check_eq_ok hcheck
  have hsub : (p.labelledReceivers.map (·.2)).Sublist
      (p.blocks.toList.flatMap (·.definitions)) := by
    rw [labelledReceivers, labelledPhis, List.map_map, List.map_flatMap]
    refine List.Sublist.flatMap_right _ fun block _ => ?_
    rw [List.map_map]
    exact List.sublist_append_right _ _
  exact (List.nodup_append.1 hnodup).2.1.sublist hsub

/-- **The numbers of an allocation account for every edit of the code.**  There is a block for
every edge that got one, and a variable and a copy for every operand copied or saved; some copies
for operands are `nop` now, none if copies are to stay.  The blocks given are as they were but for
new copies before their last instruction and where that one goes, appended blocks hold new copies
and a jump, and the phis taken out are those given, each once, block by block. -/
theorem allocate_accounts (p : Program) (o : Options) (n : Nat) (a : Allocation)
    (ha : (p.allocate o n).result = .ok a) :
    (p.allocate o n).program.blocks.size = p.blocks.size + a.splits ∧
    (p.allocate o n).program.vars.size = p.vars.size + a.copies + a.saved ∧
    a.removed ≤ a.copies ∧ (o.merge = false → a.removed = 0) ∧
    (p.allocate o n).program.count Instr.isCopy = p.count Instr.isCopy + a.remaining ∧
    (p.allocate o n).program.count (· == .nop) = p.count (· == .nop) + a.removed ∧
    (∃ l, p.lower = .ok l ∧
      (∀ b, b < p.blocks.size → p.KeepsBlock l.program (p.allocate o n).program b) ∧
      ∀ b, p.blocks.size ≤ b → b < (p.allocate o n).program.blocks.size →
        p.AddsBlock l.program (p.allocate o n).program b) ∧
    a.phis.map (fun x => (x.1, x.2.dst)) = p.labelledReceivers ∧
    (a.phis.map (·.2.dst)).Nodup := by
  obtain ⟨l, m, c, h⟩ := exists_stages ha
  obtain ⟨-, es, hes, hlength, hsub, -, hkeep⟩ := h.removed_spec
  have hl := h.account
  have hle : m.removed ≤ l.copies.size := by
    rw [← hlength, ← Array.length_toList]
    exact hsub.length_le
  have hphis : a.phis.map (fun x => (x.1, x.2.dst)) = p.labelledReceivers := by
    rw [h.phis]
    refine labelledReceivers_congr (hes.size.trans hl.added.size) (fun b hb => ?_) fun b => ?_
    · rw [hes.labels, hl.added.labels b hb]
    · rw [hes.receivers, hl.added.receivers]
  refine ⟨?_, ?_, ?_, fun ho => ?_, ?_, ?_, ?_, hphis, ?_⟩
  · rw [h.size_eq, hes.size, hl.added.size, h.splits]
  · rw [h.copies, h.saved, ← hl.vars, ← hes.vars, h.program]
    exact size_setRegisters _
  · rw [h.removed, h.copies]
    exact hle
  · rw [h.removed, ← hlength, hkeep ho]
    rfl
  · have hcount := hes.copies
    rw [hl.added.copies, hlength] at hcount
    rw [h.count_eq, Allocation.remaining, h.copies, h.saved, h.removed]
    omega
  · rw [h.count_eq, hes.nops, hl.added.nops, h.removed, hlength]
  · exact ⟨l, h.lower, fun b => h.keepsBlock, fun b => h.addsBlock⟩
  · have hnodup := nodup_labelledReceivers h.check
    rwa [← hphis, List.map_map] at hnodup

/-- In the loop of two phis the back edge gets a block, and two of the four operands are saved. -/
theorem allocate_accounts_swapLoop : ∃ a, (swapLoop.allocate {} 0).result = .ok a ∧
    (swapLoop.allocate {} 0).program.blocks.size = swapLoop.blocks.size + 1 ∧
    (swapLoop.allocate {} 0).program.vars.size = swapLoop.vars.size + 4 + 2 ∧
    (swapLoop.allocate {} 0).program.count Instr.isCopy =
      swapLoop.count Instr.isCopy + (6 - a.removed) := by
  obtain ⟨a, out, q, -, hrun⟩ := allocate_ok indexed_swapLoop check_swapLoop true
  have ha := (hrun {} rfl).1
  obtain ⟨l, m, c, h⟩ := exists_stages ha
  have hlower : (swapLoop.lower.toOption.map fun l => (l.splits, l.copies.size, l.saved))
      = some (1, 4, 2) := by decide +kernel
  rw [h.lower, Except.toOption, Option.map_some, Option.some.injEq, Prod.mk.injEq,
    Prod.mk.injEq, ← h.splits, ← h.copies, ← h.saved] at hlower
  obtain ⟨hsplits, hcopies, hsaved⟩ := hlower
  obtain ⟨hblocks, hvars, -, -, hcount, -⟩ := swapLoop.allocate_accounts {} 0 a ha
  rw [hsplits] at hblocks
  rw [hcopies, hsaved] at hvars
  rw [Allocation.remaining, hcopies, hsaved] at hcount
  exact ⟨a, ha, hblocks, hvars, hcount⟩

end Program

end ChordalAlloc
