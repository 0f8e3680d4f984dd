/-
ChordalAlloc/Proofs/Closure.lean

Lowering does not leave the programs it is meant for: what comes out passes
the check again (`Program.lower_closed`), and the records it hands on are
those that merging relies on.

A record names one entry of a phi, and every entry has its record.  So the
predecessors of a block with phis are the blocks that hold its copies, each
of which ends in a jump (`Lowered.last_of_edge`).  The variable a copy sets
is read by one entry only, so different records set different variables
(`Staged.nodup_dst`).
-/
import ChordalAlloc.Proofs.Acceptance
import ChordalAlloc.Proofs.Merging

namespace ChordalAlloc

namespace Program

variable {p q : Program} {n : Nat} {cs : List EdgeCopy}

/-- Control comes to a block with phis by a jump. -/
theorem Lowered.last_of_edge (h : Lowered p n q cs) {a b : Label} (hedge : q.Edge a b)
    (hphis : q.phis b ≠ []) : (q.body a).getLast? = some (.jump b) := by
  obtain ⟨φ, hφ⟩ := List.exists_mem_of_ne_nil _ hphis
  -- the phi has an entry for the edge, and the entry has a record
  obtain ⟨x, hx, rfl⟩ := List.mem_map.1 (((h.refines.wellFormed.phi_args b φ hφ).2 a).2 hedge)
  obtain ⟨s, ⟨rfl, -⟩, hs⟩ := exists_site hφ hx
  obtain ⟨c, hc, rfl⟩ := h.recorded s (by rw [hs]; rfl)
  have hrec := h.records c hc
  rw [hrec.arg] at hs
  cases hs
  exact hrec.last

/-- Different records set different variables. -/
theorem Staged.nodup_dst (h : Staged p n q cs) : (cs.map (·.dst)).Nodup := by
  rw [List.nodup_map_iff_inj_on h.nodup.of_map]
  intro c hc c' hc' heq
  exact h.eq_of_dst_eq hc hc' heq

/-- **What is lowered passes the check again.**  Lowering a program that passes the check succeeds,
the result passes too, and control comes to its phis by jumps alone.  Every record says which copy
it stands for and which entry reads it; the variable the copy sets is new, set by this copy and
read by this entry alone.  With these records merging succeeds, whatever way interference was
found in. -/
theorem lower_closed (p : Program) (hp : p.Indexed) (n : Nat) (hcheck : p.check n = .ok ()) :
    ∃ l, p.lower = .ok l ∧ l.program.check n = .ok () ∧
      (∀ a b, l.program.Edge a b → l.program.phis b ≠ [] →
        (l.program.body a).getLast? = some (.jump b)) ∧
      (∀ c ∈ l.copies.toList,
        (l.program.body c.location)[c.index]? = some (.copy c.dst c.value) ∧
        l.program.argAt? c.site = some ⟨c.location, c.dst⟩ ∧ p.vars.size ≤ c.dst ∧
        (∀ b i, i ∈ l.program.body b → c.dst ∉ i.reads) ∧
        ∀ s a, l.program.argAt? s = some a → a.value = c.dst → s = c.site) ∧
      (l.copies.toList.map (·.dst)).Nodup ∧
      ∀ parallel, ∃ m, l.program.mergeCopies l.copies.toList (l.program.analyse n parallel).graph
        l.program.phiClasses.classes = .ok m := by
  obtain ⟨l, hl, h⟩ := lower_spec (wellFormed_of_check hp hcheck)
  refine ⟨l, hl, h.refines.wellFormed.check, fun a b => h.last_of_edge, fun c hc => ?_,
    h.nodup_dst, fun parallel => ?_⟩
  · have hrec := h.records c hc
    exact ⟨hrec.instr, hrec.arg, h.fresh c hc, hrec.instr_reads, hrec.phi_reads⟩
  · obtain ⟨m, hm, -⟩ := mergeCopies_spec h
    exact ⟨m, hm⟩

theorem lower_closed_swapLoop :
    swapLoop.Indexed ∧ swapLoop.check 0 = .ok () ∧
      ∃ l, swapLoop.lower = .ok l ∧ l.program.check 0 = .ok () ∧
        (l.copies.toList.map (·.dst)).Nodup := by
  obtain ⟨l, hl, hcheck, -, -, hnodup, -⟩ :=
    swapLoop.lower_closed indexed_swapLoop 0 check_swapLoop
  exact ⟨indexed_swapLoop, check_swapLoop, l, hl, hcheck, hnodup⟩

end Program

end ChordalAlloc
