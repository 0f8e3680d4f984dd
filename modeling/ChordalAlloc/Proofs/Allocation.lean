/-
ChordalAlloc/Proofs/Allocation.lean

Allocation from beginning to end.

On a program that passes the check every stage succeeds, and what comes out
is known part by part (`Program.Allocated`): there is a program that may
stand in for the one given, and the output is that program with registers
that serve entered in its table and its phis taken out.  The options decide
whether copies are dropped and what is told, and nothing else.

So a program that passes the check gets registers (`allocate_ok`), and the
output does what the input did (`allocate_preserves`).
-/
import ChordalAlloc.Proofs.Assignment

namespace ChordalAlloc

namespace Program

/-- The program `out` and the allocation `a` come from `q`, which may stand in for `p`. -/
structure Allocated (p : Program) (n : Nat) (a : Allocation) (out q : Program) : Prop where
  refines : Refines n p q
  length : a.registers.length = q.vars.size
  serves : ∃ colors, q.Serves n colors ∧ ∀ v : Var, (colors[v]?).join = a.registers[v]?
  phis : a.phis = q.labelledPhis
  program : out = (q.setRegisters a.registers).withoutPhis

end Program

@[simp] theorem Report.result_after {α : Type} (events : List Event) (r : Report α) :
    (r.after events).result = r.result := rfl

@[simp] theorem Report.program_after {α : Type} (events : List Event) (r : Report α) :
    (r.after events).program = r.program := rfl

namespace Lowering

open Program

variable {p : Program} {n : Nat} {o : Options} {l : Lowering} {m : Merging} {c : Coloring}

/-! ### The stages -/

theorem settle_spec (hr : Refines n p m.program) (h : m.program.Serves n c.colors) :
    ∃ a, (l.settle m c).result = .ok a ∧ Allocated p n a (l.settle m c).program m.program := by
  obtain ⟨registers, hrun, hlength, hregisters⟩ := assigned_spec h.size h.all
  unfold settle
  rw [hrun]
  exact ⟨_, rfl, hr, hlength, ⟨c.colors, h, hregisters⟩, rfl, rfl⟩

/-- Colors that serve are not turned down, whether they are checked or not. -/
theorem review_eq_ok (h : m.program.Serves n c.colors) (hq : m.program.WellFormed n)
    (parallel : Bool) : (m.program.review o n c.colors parallel).result = .ok () := by
  unfold review
  split
  · exact (audit_eq_ok hq).2 ⟨h.all, h.housed⟩
  · rfl

theorem colorMerged_eq {g : Graph} (h : m.program.Serves n c.colors)
    (hq : m.program.WellFormed n) (parallel : Bool)
    (hrun : g.colorClasses m.classes.numbering.1.toArray (m.program.pinnedColors n) = .ok c) :
    (l.colorMerged o n g parallel m).result = (l.settle m c).result ∧
      (l.colorMerged o n g parallel m).program = (l.settle m c).program := by
  simp only [colorMerged, hrun, review_eq_ok h hq parallel, Report.result_after,
    Report.program_after, and_self]

/-- Whether copies are dropped or not, classes are left that can be colored. -/
theorem mergeCopies_spec (h : Lowered p n l.program l.copies.toList) (merge : Bool) : ∃ m,
    (∀ o : Options, o.merge = merge → l.mergeCopies o
      (l.program.interference l.program.liveness n) l.program.phiClasses.classes = .ok m) ∧
    Refines n p m.program ∧
    Merged n (l.program.interference l.program.liveness n) m.program m.classes := by
  cases merge with
  | true =>
    obtain ⟨m, hrun, hr, hm⟩ := Program.mergeCopies_spec h
    exact ⟨m, fun o ho => (if_pos ho).trans hrun, hr, hm⟩
  | false =>
    exact ⟨{ program := l.program, classes := l.program.phiClasses.classes, graph := {} },
      fun o ho => if_neg (Bool.eq_false_iff.1 ho), h.refines, h.merged⟩

end Lowering

namespace Program

variable {p : Program} {n : Nat}

/-- **A checked program is allocated, whatever the options.** -/
theorem allocate_ok (hp : p.Indexed) (hcheck : p.check n = .ok ()) (merge : Bool) :
    ∃ a out q, Allocated p n a out q ∧ ∀ o : Options, o.merge = merge →
      (p.allocate o n).result = .ok a ∧ (p.allocate o n).program = out := by
  obtain ⟨l, hlower, hl⟩ := lower_spec (wellFormed_of_check hp hcheck)
  obtain ⟨m, hmerge, hr, hm⟩ := Lowering.mergeCopies_spec hl merge
  obtain ⟨c, hcolor, hc⟩ := hm.colored (sound_interference _ _) hr.wellFormed
  obtain ⟨a, hresult, ha⟩ := @Lowering.settle_spec p n l m c hr hc
  refine ⟨a, _, m.program, ha, fun o ho => ?_⟩
  obtain ⟨hres, hprog⟩ := @Lowering.colorMerged_eq n o l m c _ hc hr.wellFormed
    (o.sideBySide l.program.blocks.size) hcolor
  simp only [allocate, hcheck, hlower, Lowering.allocate, analyse, hmerge o ho,
    Report.result_after, Report.program_after]
  exact ⟨hres.trans hresult, hprog⟩

theorem allocate_of_error {e : Error} (h : p.check n = .error e) (o : Options) :
    p.allocate o n = .stop e p := by
  rw [allocate, h]

/-! ### What the output looks like -/

namespace Allocated

variable {a : Allocation} {out q : Program}

theorem phis_eq_nil (h : Allocated p n a out q) : ∀ block ∈ out.blocks, block.phis = [] := by
  intro block hblock
  rw [h.program] at hblock
  obtain ⟨x, -, rfl⟩ := Array.mem_map.1 hblock
  rfl

theorem size (h : Allocated p n a out q) : out.vars.size = q.vars.size := by
  rw [h.program]
  exact size_setRegisters a.registers

theorem register? (h : Allocated p n a out q) (v : Var) : out.register? v = a.registers[v]? := by
  rw [h.program]
  exact register?_setRegisters h.refines.wellFormed a.registers h.length v

theorem isSome_register? (h : Allocated p n a out q) {v : Var} (hv : v < out.vars.size) :
    (out.register? v).isSome = true := by
  rw [h.size, ← h.length] at hv
  rw [h.register?, List.getElem?_eq_getElem hv]
  rfl

/-- Putting the phis back gives `q`, with the registers entered. -/
theorem restorePhis (h : Allocated p n a out q) :
    out.restorePhis a.phis = .ok (q.setRegisters a.registers) := by
  rw [h.program, h.phis]
  exact restorePhis_withoutPhis (q := q.setRegisters a.registers) h.refines.wellFormed.indexed

theorem audit (h : Allocated p n a out q) : (a.audit out n).result = .ok () := by
  obtain ⟨colors, hc, hregisters⟩ := h.serves
  rw [Allocation.audit, h.restorePhis]
  refine hc.audit h.refines.wellFormed rfl (size_setRegisters _) fun v => ?_
  rw [hregisters]
  exact register?_setRegisters h.refines.wellFormed a.registers h.length v

/-- The places of the output are the colors. -/
theorem housed (h : Allocated p n a out q) : q.Housed n out.home := by
  obtain ⟨colors, hc, hregisters⟩ := h.serves
  have hhome : out.home = colors.home := by
    funext v
    rw [home, Colors.home, h.register?, hregisters]
  rw [hhome]
  exact hc.housed

/-- Every variable that an instruction of the output mentions has a register. -/
theorem mentioned (h : Allocated p n a out q) {block : Block} (hblock : block ∈ out.blocks)
    {i : Instr} (hi : i ∈ block.body) {v : Var} (hv : v ∈ i.reads ∨ i.dst? = some v) :
    (out.register? v).isSome = true := by
  have hq := h.refines.wellFormed
  apply h.isSome_register?
  rw [h.size]
  rw [h.program] at hblock
  obtain ⟨x, hx, rfl⟩ := Array.mem_map.1 hblock
  obtain ⟨b, hb⟩ := Array.mem_iff_getElem?.1 hx
  have hbody : q.body b = x.body := body_of hb
  obtain ⟨k, hk⟩ := List.mem_iff_getElem?.1 hi
  rcases hv with hv | hv
  · exact hq.reads_lt (.inl ⟨b, i, by rw [hbody]; exact hi, hv⟩)
  · exact hq.defines_lt (.instr b k) v ⟨i, by rw [hbody]; exact hk, hv⟩

/-- The output, run on registers, does what `p` does. -/
theorem sameBehavior (h : Allocated p n a out q) (w : World) (args : Fin (n + 1) → Int64) :
    SameBehavior (p.run w id args) (out.run w out.home args) := by
  have hstep : out.step w out.home = q.withoutPhis.step w out.home := by
    funext c
    rw [h.program]
    cases c <;> rfl
  have hrun : out.run w out.home args = q.withoutPhis.run w out.home args := by
    funext k
    rw [run, run, hstep]
  rw [hrun]
  exact (h.refines.behavior w args).trans (h.housed.sameBehavior h.refines.wellFormed w args)

end Allocated

/-! ### The main result -/

/-- **Allocation preserves meaning.**  The output has no phis, every variable it mentions has
the register that was assigned to it, and with every variable in its register the output does
what the program given does on its variables. -/
theorem allocate_preserves (p : Program) (hp : p.Indexed) (n : Nat) (hcheck : p.check n = .ok ())
    (o : Options) (a : Allocation) (ha : (p.allocate o n).result = .ok a) :
    (∀ block ∈ (p.allocate o n).program.blocks, block.phis = [] ∧
      ∀ i ∈ block.body, ∀ v, v ∈ i.reads ∨ i.dst? = some v →
        ∃ r, a.registers[v]? = some r ∧ (p.allocate o n).program.home v = r) ∧
    ∀ (w : World) (args : Fin (n + 1) → Int64), SameBehavior (p.run w id args)
      ((p.allocate o n).program.run w (p.allocate o n).program.home args) := by
  obtain ⟨a', out, q, ha', hrun⟩ := allocate_ok hp hcheck o.merge
  obtain ⟨hresult, hprogram⟩ := hrun o rfl
  obtain rfl : a' = a := by
    rw [hresult] at ha
    exact Except.ok.inj ha
  rw [hprogram]
  refine ⟨fun block hblock => ⟨ha'.phis_eq_nil block hblock, fun i hi v hv => ?_⟩,
    ha'.sameBehavior⟩
  obtain ⟨r, hr⟩ := Option.isSome_iff_exists.1 (ha'.mentioned hblock hi hv)
  refine ⟨r, by rw [← ha'.register?, hr], ?_⟩
  rw [home, hr]
  rfl

theorem allocate_preserves_countUp : countUp.check 0 = .ok () ∧
    ∃ a, (countUp.allocate {} 0).result = .ok a ∧
      ∀ (w : World) (args : Fin 1 → Int64), SameBehavior (countUp.run w id args)
        ((countUp.allocate {} 0).program.run w (countUp.allocate {} 0).program.home args) := by
  have hcheck : countUp.check 0 = .ok () := by decide +kernel
  obtain ⟨a, out, q, -, hrun⟩ := allocate_ok indexed_countUp hcheck true
  have ha := (hrun {} rfl).1
  exact ⟨hcheck, a, ha, (allocate_preserves countUp indexed_countUp 0 hcheck {} a ha).2⟩

end Program

end ChordalAlloc
