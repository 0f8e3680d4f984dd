/-
ChordalAlloc/Proofs/Records.lean

The records that lowering keeps of its copies, and what they say about the
program.

A copy stands for one operand of one phi (`Recorded`): it is where the record
says, behind it there are only recorded copies for phis of the same block,
`nop`, and the jump to that block, what it copies is not set by these phis,
and the variable it sets is read by the operand and by nothing else.

`Staged p n q cs` says that `q` may stand in for `p` and that all of `cs` are
such records.  It is kept when a block is put on an edge that does not start
in a block with a recorded copy (`Staged.detour`), when a copy is added for a
block without records (`Staged.copy`), and when a copy is added and recorded
(`Staged.record`).
-/
import ChordalAlloc.Lowering
import ChordalAlloc.Proofs.AddedCopy
import ChordalAlloc.Proofs.Detour

namespace ChordalAlloc

namespace Program

/-- The operand at a site. -/
def argAt? (p : Program) (s : Site) : Option PhiArg := p.phiArg? s.block s.phi s.arg

/-- The record of a copy is true of the program, in which `cs` are all recorded copies. -/
structure Recorded (q : Program) (cs : List EdgeCopy) (c : EdgeCopy) : Prop where
  instr : (q.body c.location)[c.index]? = some (.copy c.dst c.value)
  last : (q.body c.location).getLast? = some (.jump c.site.block)
  after : ∀ k i, c.index < k → (q.body c.location)[k]? = some i → i = .jump c.site.block ∨
    i = .nop ∨ ∃ c' ∈ cs, i = .copy c'.dst c'.value ∧ c'.site.block = c.site.block
  value : c.value ∉ q.receivers c.site.block
  arg : q.argAt? c.site = some ⟨c.location, c.dst⟩
  instr_reads : ∀ b i, i ∈ q.body b → c.dst ∉ i.reads
  phi_reads : ∀ s a, q.argAt? s = some a → a.value = c.dst → s = c.site

/-- The program `q` may stand in for `p`, and the records of `cs` are true of it. -/
structure Staged (p : Program) (n : Nat) (q : Program) (cs : List EdgeCopy) : Prop where
  refines : Refines n p q
  records : ∀ c ∈ cs, q.Recorded cs c
  nodup : (cs.map (·.site)).Nodup
  vars : p.vars.size ≤ q.vars.size
  /-- The targets of the copies are no variables of `p`. -/
  fresh : ∀ c ∈ cs, p.vars.size ≤ c.dst
  size : p.blocks.size ≤ q.blocks.size
  receivers : ∀ b, q.receivers b = p.receivers b
  sites : ∀ s, (q.argAt? s).isSome = (p.argAt? s).isSome

variable {p q q' : Program} {n : Nat} {cs : List EdgeCopy} {c : EdgeCopy}

/-- Every operand of a phi has a site. -/
theorem exists_site {b : Label} {φ : Phi} {a : PhiArg} (hφ : φ ∈ p.phis b) (ha : a ∈ φ.args) :
    ∃ s, (s.block = b ∧ (p.phis b)[s.phi]? = some φ) ∧ p.argAt? s = some a := by
  obtain ⟨k, hk⟩ := List.mem_iff_getElem?.1 hφ
  obtain ⟨j, hj⟩ := List.mem_iff_getElem?.1 ha
  refine ⟨⟨b, k, j⟩, ⟨rfl, hk⟩, ?_⟩
  rw [argAt?, phiArg?_eq, hk]
  exact hj

/-- A site is in a phi. -/
theorem phi_of_site {s : Site} {a : PhiArg} (ha : p.argAt? s = some a) :
    ∃ φ, (p.phis s.block)[s.phi]? = some φ ∧ φ.args[s.arg]? = some a := by
  rw [argAt?, phiArg?_eq] at ha
  exact Option.bind_eq_some_iff.1 ha

/-- Operands are known from the phis. -/
theorem argAt?_congr (h : ∀ b, q.phis b = p.phis b) (s : Site) : q.argAt? s = p.argAt? s := by
  rw [argAt?, phiArg?_eq, h, argAt?, phiArg?_eq]

/-- Setting an operand changes what is at its site. -/
theorem argAt?_setArg {s : Site} {a : PhiArg} (ha : p.argAt? s = some a) (a' : PhiArg) (t : Site) :
    (p.setArg s.block s.phi s.arg a').argAt? t = if t = s then some a' else p.argAt? t := by
  rw [argAt?, phiArg?_of_set ha ((phis_setArg _ _ _ _).trans (if_pos rfl))
    fun c hc => (phis_setArg _ _ _ _).trans (if_neg hc)]
  obtain ⟨b, k, j⟩ := s
  obtain ⟨c, l, m⟩ := t
  simp only [Site.mk.injEq]
  rfl

theorem Recorded.lt_size (h : q.Recorded cs c) : c.location < q.blocks.size :=
  lt_size_of_body h.instr

/-- The copy is not the last instruction of its block. -/
theorem Recorded.index_lt (h : q.Recorded cs c) {init : List Instr} {t : Instr}
    (hbody : q.body c.location = init ++ [t]) : c.index < init.length := by
  have hlt := (List.getElem?_eq_some_iff.1 h.instr).1
  have hlast := h.last
  have hinstr := h.instr
  rw [hbody, List.length_append, List.length_singleton] at hlt
  rw [hbody, List.getLast?_concat] at hlast
  by_contra hge
  have heq : c.index = init.length := by omega
  rw [hbody, heq, List.getElem?_concat_length, hlast] at hinstr
  cases hinstr

theorem Recorded.dst_lt (hq : q.WellFormed n) (h : q.Recorded cs c) : c.dst < q.vars.size :=
  hq.defines_lt (.instr c.location c.index) c.dst ⟨_, h.instr, rfl⟩

/-! ### A block on an edge -/

section Detour

variable {s b : Label}

theorem Detours.argAt? (hd : Detours q q' s b) (t : Site) :
    q'.argAt? t = (q.argAt? t).map fun a =>
      { a with source := q.via s b t.block a.source } :=
  hd.phiArg? t.block t.phi t.arg

theorem Recorded.detour (h : q.Recorded cs c) (hq : q.WellFormed n) (hd : Detours q q' s b)
    (hs : c.location ≠ s) : q'.Recorded cs c := by
  have hbody : q'.body c.location = q.body c.location :=
    hd.body_other _ hs (Nat.ne_of_lt h.lt_size)
  refine ⟨?_, ?_, ?_, ?_, ?_, fun d i hi hv => ?_, fun t a ha hv => ?_⟩
  · rw [hbody]
    exact h.instr
  · rw [hbody]
    exact h.last
  · rw [hbody]
    exact h.after
  · rw [hd.receivers]
    exact h.value
  · rw [hd.argAt?, h.arg, Option.map_some]
    rw [via_of_ne hs]
  · obtain ⟨k, hk⟩ := List.mem_iff_getElem?.1 hi
    by_cases hde : d = q.blocks.size
    · rw [hde, hd.body_edge, List.mem_singleton] at hi
      rw [hi] at hv
      exact absurd hv List.not_mem_nil
    · obtain ⟨i', hi', -, hreads⟩ := hd.instr_of hq hde hk
      rw [← hreads] at hv
      exact h.instr_reads d i' (List.mem_of_getElem? hi') hv
  · rw [hd.argAt?, Option.map_eq_some_iff] at ha
    obtain ⟨a', ha', rfl⟩ := ha
    exact h.phi_reads t a' ha' hv

/-- An edge that starts in a block without recorded copies may get a block of its own. -/
theorem Staged.detour (h : Staged p n q cs) (hd : Detours q q' s b)
    (hs : ∀ t, (q.body s).getLast? ≠ some (.jump t)) : Staged p n q' cs where
  refines := h.refines.trans (hd.refines h.refines.wellFormed)
  records c hc := by
    have hrec := h.records c hc
    refine hrec.detour h.refines.wellFormed hd ?_
    rintro rfl
    exact hs _ hrec.last
  nodup := h.nodup
  vars := by
    rw [hd.vars]
    exact h.vars
  fresh := h.fresh
  size := by
    rw [hd.size]
    exact Nat.le_succ_of_le h.size
  receivers c := by
    rw [hd.receivers, h.receivers]
  sites t := by
    rw [hd.argAt?, Option.isSome_map]
    exact h.sites t

end Detour

/-! ### One more copy -/

section Copy

variable {b : Label} {k j : Nat} {loc : Label} {x : Var} {init : List Instr}

theorem Rewires.argAt? {y : Var} (hr : Rewires q q' b k j loc x y) (t : Site) :
    q'.argAt? t = if t = ⟨b, k, j⟩ then some ⟨loc, y⟩ else q.argAt? t := by
  obtain ⟨c, l, m⟩ := t
  rw [Program.argAt?, hr.phiArg?]
  simp only [Site.mk.injEq]
  rfl

/-- A record stays true, provided that a copy put behind it is recorded as well. -/
theorem Recorded.copy {cs' : List EdgeCopy} (h : q.Recorded cs c) (hq : q.WellFormed n)
    (hc : CopyAdded q q' b k j loc x init) (hsite : c.site ≠ ⟨b, k, j⟩)
    (hsub : cs ⊆ cs') (hnew : c.location = loc → ∃ c' ∈ cs', c'.dst = q.vars.size ∧
      c'.value = x ∧ c'.site.block = b) : q'.Recorded cs' c := by
  have hdst : c.dst ≠ q.vars.size := Nat.ne_of_lt (h.dst_lt hq)
  -- behind the record there is what was there before, the new copy, or the jump
  have hafter : ∀ l i, c.index < l → (q'.body c.location)[l]? = some i →
      i = .jump c.site.block ∨ i = .nop ∨
        ∃ c' ∈ cs', i = .copy c'.dst c'.value ∧ c'.site.block = c.site.block := by
    intro l i hl hi
    have hblock : c.location = loc → c.site.block = b := by
      intro heq
      have hlast := h.last
      rw [heq, hc.body_old, List.getLast?_concat] at hlast
      cases hlast
      rfl
    rcases hc.instr_cases hi with ⟨-, hold⟩ | ⟨heq, -, rfl⟩ | ⟨heq, -, rfl⟩
    · rcases h.after l i hl hold with hjump | hnop | ⟨c', hc', hrest⟩
      · exact .inl hjump
      · exact .inr (.inl hnop)
      · exact .inr (.inr ⟨c', hsub hc', hrest⟩)
    · obtain ⟨c', hc', hdst', hvalue', hb⟩ := hnew heq
      refine .inr (.inr ⟨c', hc', ?_, hb.trans (hblock heq).symm⟩)
      rw [hdst', hvalue']
    · exact .inl (by rw [hblock heq])
  refine ⟨?_, ?_, hafter, ?_, ?_, fun d i hi hv => ?_, fun t a ha hv => ?_⟩
  · by_cases heq : c.location = loc
    · have hlt : c.index < init.length := h.index_lt (by rw [heq, hc.body_old])
      have hinstr := h.instr
      rw [heq, hc.body_old, List.getElem?_append_left hlt] at hinstr
      rw [heq, hc.body_new, List.getElem?_append_left hlt, hinstr]
    · rw [hc.body_other _ heq]
      exact h.instr
  · have hlast := h.last
    by_cases heq : c.location = loc
    · rw [heq, hc.body_old, List.getLast?_concat] at hlast
      rw [heq, hc.body_new, ← hlast]
      simp
    · rw [hc.body_other _ heq, hlast]
  · rw [hc.receivers]
    exact h.value
  · rw [hc.argAt?, if_neg hsite]
    exact h.arg
  · obtain ⟨l, hl⟩ := List.mem_iff_getElem?.1 hi
    rcases hc.instr_cases hl with ⟨-, hold⟩ | ⟨-, -, rfl⟩ | ⟨-, -, rfl⟩
    · exact h.instr_reads d i (List.mem_of_getElem? hold) hv
    · -- what is copied is the operand of another phi
      have hx : c.dst = x := List.mem_singleton.1 hv
      exact hsite (h.phi_reads ⟨b, k, j⟩ ⟨loc, x⟩ hc.arg hx.symm).symm
    · exact absurd hv List.not_mem_nil
  · rw [hc.argAt?] at ha
    split at ha
    · cases ha
      exact absurd hv.symm hdst
    · exact h.phi_reads t a ha hv

theorem Recorded.new {cs' : List EdgeCopy} (hq : q.WellFormed n)
    (hc : CopyAdded q q' b k j loc x init) (hx : x ∉ q.receivers b) :
    q'.Recorded cs' ⟨⟨b, k, j⟩, x, q.vars.size, loc, init.length⟩ := by
  refine ⟨?_, ?_, fun l i hl hi => ?_, ?_, ?_, fun d i hi hv => ?_, fun t a ha hv => ?_⟩
  · rw [hc.body_new, List.getElem?_append_right (Nat.le_refl _), Nat.sub_self]
    rfl
  · rw [hc.body_new]
    simp
  · rcases hc.instr_cases hi with ⟨hnot, -⟩ | ⟨-, rfl, -⟩ | ⟨-, -, rfl⟩
    · exact absurd ⟨rfl, Nat.le_of_lt hl⟩ hnot
    · exact absurd hl (Nat.lt_irrefl _)
    · exact .inl rfl
  · rw [hc.receivers]
    exact hx
  · rw [hc.argAt?, if_pos rfl]
  · obtain ⟨l, hl⟩ := List.mem_iff_getElem?.1 hi
    rcases hc.instr_cases hl with ⟨-, hold⟩ | ⟨-, -, rfl⟩ | ⟨-, -, rfl⟩
    · have hlt := hq.reads_lt (.inl ⟨d, i, List.mem_of_getElem? hold, hv⟩)
      exact absurd hlt (Nat.lt_irrefl _)
    · exact hc.ne_operand hq (List.mem_singleton.1 hv)
    · exact absurd hv List.not_mem_nil
  · rw [hc.argAt?] at ha
    split at ha
    · next heq => exact heq
    · -- no operand is the new variable yet
      have hlt : a.value < q.vars.size := by
        obtain ⟨φ, hφ, ha⟩ := phi_of_site ha
        exact hq.arg_lt (List.mem_of_getElem? hφ) (List.mem_of_getElem? ha)
      exact absurd hv (Nat.ne_of_lt hlt)

theorem Rewires.isSome_argAt? {y : Var} (hr : Rewires q q' b k j loc x y) (t : Site) :
    (q'.argAt? t).isSome = (q.argAt? t).isSome := by
  rw [hr.argAt?]
  split
  · next heq =>
    rw [heq, show q.argAt? ⟨b, k, j⟩ = some ⟨loc, x⟩ from hr.arg]
    rfl
  · rfl

/-- A copy may be added for a block that no record is about. -/
theorem Staged.copy (h : Staged p n q cs) (hc : CopyAdded q q' b k j loc x init)
    (hb : ∀ c ∈ cs, c.site.block ≠ b) : Staged p n q' cs where
  refines := h.refines.trans (hc.refines h.refines.wellFormed)
  records c hmem := by
    have hrec := h.records c hmem
    refine hrec.copy h.refines.wellFormed hc ?_ (List.Subset.refl cs) fun heq => ?_
    · intro hsite
      exact hb c hmem (by rw [hsite])
    · have hlast := hrec.last
      rw [heq, hc.body_old, List.getLast?_concat] at hlast
      cases hlast
      exact absurd rfl (hb c hmem)
  nodup := h.nodup
  vars := by
    rw [hc.vars, Array.size_push]
    exact Nat.le_succ_of_le h.vars
  fresh := h.fresh
  size := by
    rw [hc.size]
    exact h.size
  receivers c := by
    rw [hc.receivers, h.receivers]
  sites t := (hc.isSome_argAt? t).trans (h.sites t)

/-- A copy may be added and recorded, once for each operand. -/
theorem Staged.record (h : Staged p n q cs) (hc : CopyAdded q q' b k j loc x init)
    (hsite : ∀ c ∈ cs, c.site ≠ ⟨b, k, j⟩) (hx : x ∉ q.receivers b) :
    Staged p n q' (cs ++ [⟨⟨b, k, j⟩, x, q.vars.size, loc, init.length⟩]) where
  refines := h.refines.trans (hc.refines h.refines.wellFormed)
  records c hmem := by
    rcases List.mem_append.1 hmem with hmem | hmem
    · refine (h.records c hmem).copy h.refines.wellFormed hc (hsite c hmem)
        (List.subset_append_left _ _) fun _ => ?_
      exact ⟨_, List.mem_append_right _ List.mem_cons_self, rfl, rfl, rfl⟩
    · rw [List.mem_singleton.1 hmem]
      exact Recorded.new h.refines.wellFormed hc hx
  nodup := by
    rw [List.map_append, List.nodup_append]
    refine ⟨h.nodup, List.nodup_singleton _, fun t ht u hu => ?_⟩
    obtain ⟨c, hmem, rfl⟩ := List.mem_map.1 ht
    rw [List.map_singleton, List.mem_singleton] at hu
    rw [hu]
    exact hsite c hmem
  vars := by
    rw [hc.vars, Array.size_push]
    exact Nat.le_succ_of_le h.vars
  fresh c hmem := by
    rcases List.mem_append.1 hmem with hmem | hmem
    · exact h.fresh c hmem
    · rw [List.mem_singleton.1 hmem]
      exact h.vars
  size := by
    rw [hc.size]
    exact h.size
  receivers c := by
    rw [hc.receivers, h.receivers]
  sites t := (hc.isSome_argAt? t).trans (h.sites t)

end Copy

end Program

end ChordalAlloc
