/-
ChordalAlloc/Proofs/Registers.lean

Running a program on registers instead of variables.

`Program.Housed p n home` lists what an assignment of places to variables
needs: parameters stay where the caller puts them, a phi and its operands
share a place, and variables that clash do not.  The main result,
`Housed.sameBehavior`, says that this is enough to leave the phis out: the
program without its phis, run on the places, behaves like the program with
its phis, run on its variables.

The invariant of the simulation (`Agree`) is that the place of every live
variable holds the value of that variable.  It speaks about live variables
only, so an instruction may destroy what nobody will read; the place of a
variable that somebody will read is safe because the two variables clash.
-/
import ChordalAlloc.Allocation
import ChordalAlloc.Proofs.Interference
import ChordalAlloc.Proofs.Steps

namespace ChordalAlloc

namespace Program

/-! ### Places for variables -/

/-- Places that serve the variables of a program with parameters `0 .. n`. -/
structure Housed (p : Program) (n : Nat) (home : Var → Nat) : Prop where
  /-- Parameters stay where they come in. -/
  pinned : ∀ v, v ≤ n → home v = v
  /-- A phi moves nothing. -/
  phis : ∀ b φ a, φ ∈ p.phis b → a ∈ φ.args → home a.value = home φ.dst
  /-- Variables that clash are apart. -/
  clash : ∀ u v, u ≠ v → p.Clash n u v → home u ≠ home v

/-- The place of every variable that is live at a position holds its value. -/
structure Agree (p : Program) (home : Var → Nat) (b : Label) (k : Nat) (m m' : Memory) :
    Prop where
  calls : m.calls = m'.calls
  cells : ∀ v, p.Live b k v → m'.cells (home v) = m.cells v

section Simulation

variable {p : Program} {n : Nat} {home : Var → Nat} {w : World} {b s : Label} {k : Nat}
variable {m m' : Memory}

theorem Agree.reads {i : Instr} (ha : p.Agree home b k m m') (hi : (p.body b)[k]? = some i) :
    ∀ v ∈ i.reads, m.read id v = m'.read home v :=
  fun v hv => (ha.cells v (.read hi hv)).symm

/-- One instruction keeps the places of live variables right. -/
theorem Agree.exec {i : Instr} (hh : p.Housed n home) (ha : p.Agree home b k m m')
    (hi : (p.body b)[k]? = some i) :
    p.Agree home b (k + 1) (i.exec w id m) (i.exec w home m') := by
  have hreads := ha.reads hi
  have hvalue : i.value w (m.read id) m.calls = i.value w (m'.read home) m'.calls := by
    rw [ha.calls]
    exact Instr.value_congr hreads w _
  constructor
  · show m.calls ++ i.callsMade (m.read id) = m'.calls ++ i.callsMade (m'.read home)
    rw [ha.calls, Instr.callsMade_congr hreads]
  · intro v hv
    rcases hd : i.dst? with - | d
    · -- nothing is written, and what is live after the instruction is live before it
      have hpass : p.Live b k v := .pass hi (by rw [hd]; rintro ⟨⟩) hv
      simp only [Instr.exec, hd]
      exact ha.cells v hpass
    · simp only [Instr.exec, hd]
      by_cases hvd : v = d
      · subst hvd
        show Function.update m'.cells (home v) _ (home v) = Function.update m.cells v _ v
        rw [Function.update_self, Function.update_self, hvalue]
      · have hpass : p.Live b k v := .pass hi (by rw [hd]; rintro ⟨⟩; exact hvd rfl) hv
        have hapart : home v ≠ home d := (hh.clash d v (Ne.symm hvd) (.instr hi hd hv)).symm
        show Function.update m'.cells (home d) _ (home v) = Function.update m.cells d _ v
        rw [Function.update_of_ne hapart, Function.update_of_ne hvd]
        exact ha.cells v hpass

/-- The rest of a block keeps the places right up to its end, and leaves the same way. -/
theorem Agree.runBody (h : p.WellFormed n) (hh : p.Housed n home)
    (hk : k ≤ (p.body b).length) (ha : p.Agree home b k m m') :
    (runBody w id ((p.body b).drop k) m).2 = (runBody w home ((p.body b).drop k) m').2 ∧
      p.Agree home b (p.body b).length (runBody w id ((p.body b).drop k) m).1
        (runBody w home ((p.body b).drop k) m').1 := by
  induction hk using Nat.decreasingInduction generalizing m m' with
  | self =>
    rw [List.drop_length]
    exact ⟨rfl, ha⟩
  | of_succ k hlt ih =>
    have hi : (p.body b)[k]? = some (p.body b)[k] := List.getElem?_eq_getElem hlt
    rw [List.drop_eq_getElem_cons hlt, ChordalAlloc.runBody, ChordalAlloc.runBody]
    by_cases ht : (p.body b)[k].isTerminator = true
    · rw [if_pos ht, if_pos ht]
      refine ⟨Instr.exit_congr (ha.reads hi), ha.calls, fun v hv => ?_⟩
      -- a terminator sets nothing and is the last instruction
      rw [← h.length_of_terminator hi ht] at hv
      exact ha.cells v (.pass hi (by rw [Instr.dst?_eq_none ht]; rintro ⟨⟩) hv)
    · rw [if_neg ht, if_neg ht]
      exact ih (ha.exec hh hi)

/-- Entering a block sets the variables of its phis, whose places hold these values already. -/
theorem Agree.enter (h : p.WellFormed n) (hh : p.Housed n home) (he : p.Edge s b)
    (ha : p.Agree home s (p.body s).length m m') :
    p.Agree home b 0 (enterPhis id (p.phis b) s m) m' := by
  refine ⟨ha.calls, fun v hv => ?_⟩
  by_cases hrec : v ∈ p.receivers b
  · obtain ⟨φ, hφ, rfl⟩ := mem_receivers.1 hrec
    obtain ⟨u, harg, hmem⟩ := h.exists_argFrom hφ he
    rw [enterPhis_of_mem (h.nodup_receivers b) hφ harg, ← hh.phis b φ ⟨s, u⟩ hφ hmem]
    exact ha.cells u (.arrive rfl he hφ hmem)
  · rw [enterPhis_of_notMem hrec]
    exact ha.cells v (.cross rfl he hrec hv)

/-! ### From the arguments on -/

theorem entryCells_of_pinned {args : Fin (n + 1) → Int64} (hh : p.Housed n home) :
    entryCells w home args = entryCells w id args := by
  unfold entryCells
  apply List.foldl_ext
  intro cells i _
  rw [hh.pinned i.val (Nat.le_of_lt_succ i.isLt)]
  rfl

/-- Places beyond the parameters are blank at the beginning. -/
theorem entryCells_of_lt {args : Fin (n + 1) → Int64} {v : Nat} (hv : n < v) :
    entryCells w id args v = w.blank := by
  unfold entryCells
  generalize List.finRange (n + 1) = is
  induction is using List.reverseRecOn with
  | nil => rfl
  | append_singleton is i ih =>
    have hne : v ≠ i.val := by omega
    rw [List.foldl_append, List.foldl_cons, List.foldl_nil]
    exact (Function.update_of_ne hne _ _).trans ih

theorem agree_start (h : p.WellFormed n) (hh : p.Housed n home) (args : Fin (n + 1) → Int64) :
    p.Agree home 0 0 ⟨entryCells w id args, []⟩ ⟨entryCells w home args, []⟩ := by
  refine ⟨rfl, fun v hv => ?_⟩
  show entryCells w home args (home v) = entryCells w id args v
  rw [entryCells_of_pinned hh]
  by_cases hvn : v ≤ n
  · rw [hh.pinned v hvn]
  · -- the place of any other live variable is none of those of the parameters
    have hrec : v ∉ p.receivers 0 := by
      rw [receivers, h.entry_phis]
      exact List.not_mem_nil
    have hout : n < home v := by
      by_contra hle
      have hle := Nat.le_of_not_lt hle
      have hne : home v ≠ v := fun heq => hvn (heq ▸ hle)
      exact hh.clash (home v) v hne (.entry hle hrec hv) (hh.pinned _ hle)
    rw [entryCells_of_lt hout, entryCells_of_lt (Nat.lt_of_not_le hvn)]

/-- Both runs are at the same point, and the places of all that is live there are right. -/
inductive AgreeOn (p : Program) (home : Var → Nat) : Config → Config → Prop
  /-- At the beginning the places of what the entry reads are right. -/
  | begun {m m' : Memory} : p.Agree home 0 0 m m' →
    AgreeOn p home (.running none 0 m) (.running none 0 m')
  /-- On an edge the places of what is live at the end of its source are right. -/
  | onEdge {s b : Label} {m m' : Memory} : p.Edge s b →
    p.Agree home s (p.body s).length m m' →
    AgreeOn p home (.running (some s) b m) (.running (some s) b m')
  /-- Both runs are over. -/
  | ended {o : Outcome} {cs : List Call} : AgreeOn p home (.ended o cs) (.ended o cs)

@[simp] theorem body_withoutPhis (b : Label) : p.withoutPhis.body b = p.body b := by
  rcases h : p.blocks[b]? with - | block <;> simp [Program.body, withoutPhis, h]

@[simp] theorem phis_withoutPhis (b : Label) : p.withoutPhis.phis b = [] := by
  rcases h : p.blocks[b]? with - | block <;> simp [Program.phis, withoutPhis, h]

@[simp] theorem size_withoutPhis : p.withoutPhis.blocks.size = p.blocks.size := Array.size_map

theorem AgreeOn.calls {c c' : Config} (hr : p.AgreeOn home c c') : c.calls = c'.calls := by
  cases hr with
  | begun ha => exact ha.calls
  | onEdge _ ha => exact ha.calls
  | ended => rfl

/-- From the top of a block to the top of the next. -/
theorem AgreeOn.body (h : p.WellFormed n) (hh : p.Housed n home) (ha : p.Agree home b 0 m m') :
    p.AgreeOn home (.after b (ChordalAlloc.runBody w id (p.body b) m))
      (.after b (ChordalAlloc.runBody w home (p.body b) m')) := by
  have key := ha.runBody (w := w) h hh (Nat.zero_le _)
  have hedge := h.edge_of_runBody (b := b) (w := w) (m := m)
  rw [List.drop_zero] at key
  rcases hr : ChordalAlloc.runBody w id (p.body b) m with ⟨m₁, e⟩
  rcases hr' : ChordalAlloc.runBody w home (p.body b) m' with ⟨m₁', e'⟩
  rw [hr, hr'] at key
  rw [hr] at hedge
  obtain ⟨heq, hend⟩ := key
  obtain rfl : e = e' := heq
  cases e with
  | goto t => exact .onEdge (hedge t rfl) hend
  | leave o =>
    show p.AgreeOn home (.ended o m₁.calls) (.ended o m₁'.calls)
    rw [show m₁.calls = m₁'.calls from hend.calls]
    exact .ended

theorem AgreeOn.step {c c' : Config} (h : p.WellFormed n) (hh : p.Housed n home)
    (hr : p.AgreeOn home c c') :
    p.AgreeOn home (p.step w id c) (p.withoutPhis.step w home c') := by
  cases hr with
  | ended => exact .ended
  | begun ha =>
    rw [step_running h.entry, step_running (size_withoutPhis.symm ▸ h.entry), body_withoutPhis]
    exact AgreeOn.body h hh ha
  | @onEdge s b m m' he ha =>
    rw [step_running he.2, step_running (size_withoutPhis.symm ▸ he.2), body_withoutPhis]
    show p.AgreeOn home _ (.after b (ChordalAlloc.runBody w home (p.body b)
      (enterPhis home (p.withoutPhis.phis b) s m')))
    rw [phis_withoutPhis]
    exact AgreeOn.body h hh (ha.enter h hh he)

/-- **Places that serve make phis superfluous.** -/
theorem Housed.sameBehavior (hh : p.Housed n home) (h : p.WellFormed n) (w : World)
    (args : Fin (n + 1) → Int64) :
    SameBehavior (p.run w id args) (p.withoutPhis.run w home args) := by
  apply SameBehavior.of_simulation (R := p.AgreeOn home)
  · intro c c' hr
    exact hr.calls
  · intro source b m c' hr
    cases hr with
    | begun _ => exact ⟨_, _, _, rfl⟩
    | onEdge _ _ => exact ⟨_, _, _, rfl⟩
  · intro o cs c' hr
    cases hr
    rfl
  · intro source b m c' hr
    exact ⟨0, hr.step h hh⟩
  · exact .begun (agree_start h hh args)

end Simulation

end Program

end ChordalAlloc
