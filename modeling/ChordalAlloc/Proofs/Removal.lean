/-
ChordalAlloc/Proofs/Removal.lean

What dropping copies does to the code, counted.

A copy that is dropped leaves a `nop` where it stood, and the entry that read
it reads what was copied.  Nothing else changes (`Program.Removed`), so there
is one copy less and one `nop` more for each (`Removed.drop`, `Removed.run`).
As in counting what lowering adds, nothing is assumed of the program; which
copies are dropped is known from the classes (`Lowering.removed_mergeCopies`).
-/
import Mathlib.Data.List.Forall2
import ChordalAlloc.Allocation
import ChordalAlloc.Proofs.Additions
import ChordalAlloc.Proofs.KeptCopies

namespace ChordalAlloc

open Program

/-- The instruction is as it was, or it copied to a new variable and is gone. -/
def Instr.Blanked (n : Nat) (i j : Instr) : Prop := j = i ∨ i.SetsNew n ∧ j = .nop

namespace Program

/-- The program `q'` is `q` with the copies of `es` taken out, which set variables from `n` on. -/
structure Removed (n : Nat) (q : Program) (es : List EdgeCopy) (q' : Program) : Prop where
  vars : q'.vars = q.vars
  size : q'.blocks.size = q.blocks.size
  labels : ∀ b, q'.label? b = q.label? b
  receivers : ∀ b, q'.receivers b = q.receivers b
  copies : q.count Instr.isCopy = q'.count Instr.isCopy + es.length
  nops : q'.count (· == .nop) = q.count (· == .nop) + es.length
  body : ∀ b, List.Forall₂ (Instr.Blanked n) (q.body b) (q'.body b)
  args : ∀ s a, q'.argAt? s = some a →
    (∃ a₀, q.argAt? s = some a₀ ∧ a₀.value = a.value) ∨ ∃ e ∈ es, e.site = s ∧ e.value = a.value

theorem Removed.refl (n : Nat) (q : Program) : Removed n q [] q where
  vars := rfl
  size := rfl
  labels _ := rfl
  receivers _ := rfl
  copies := rfl
  nops := rfl
  body _ := List.forall₂_same.2 fun _ _ => .inl rfl
  args _ a ha := .inl ⟨a, ha, rfl⟩

variable {p q q' : Program} {n : Nat} {es : List EdgeCopy} {e : EdgeCopy}

theorem onPhiArg?_eq_some {b : Label} {k j : Nat} {f : PhiArg → PhiArg} {x : PhiArg × Program}
    (h : p.onPhiArg? b k j f = some x) :
    ∃ a, p.phiArg? b k j = some a ∧ x = (f a, p.setArg b k j (f a)) := by
  have harg : (p.phiArg? b k j).isSome = true := by
    simp only [onPhiArg?, onBlock?, Block.onPhi?, Phi.onArg?, Option.bind_eq_bind,
      Option.bind_eq_some_iff, Option.map_eq_some_iff] at h
    obtain ⟨block, hb, -, ⟨φ, hφ, -, ⟨a, ha, -⟩, -⟩, -⟩ := h
    rw [phiArg?_eq, phis_of hb, hφ, Option.bind_some, ha]
    rfl
  obtain ⟨a, ha⟩ := Option.isSome_iff_exists.1 harg
  rw [onPhiArg?_eq ha] at h
  exact ⟨a, ha, (Option.some.inj h).symm⟩

/-- An instruction that takes the place of another is counted in its place. -/
theorem countP_set (kind : Instr → Bool) {is : List Instr} {k : Nat} {i : Instr}
    (hk : is[k]? = some i) (j : Instr) :
    (is.set k j).countP kind + [i].countP kind = is.countP kind + [j].countP kind := by
  induction is generalizing k with
  | nil => cases hk
  | cons x is ih =>
    cases k with
    | zero =>
      cases hk
      rw [List.set_cons_zero, ← List.singleton_append, List.countP_append,
        ← List.singleton_append (l := is), List.countP_append]
      omega
    | succ k =>
      have := ih hk
      rw [List.set_cons_succ, List.countP_cons (l := is.set k j), List.countP_cons (l := is)]
      omega

/-- A copy that is there yet may go. -/
theorem forall₂_set {is js : List Instr} {k : Nat} {x y : Var}
    (h : List.Forall₂ (Instr.Blanked n) is js) (hk : js[k]? = some (.copy x y)) (hx : n ≤ x) :
    List.Forall₂ (Instr.Blanked n) is (js.set k .nop) := by
  induction h generalizing k with
  | nil => exact .nil
  | @cons i j is js hij hrest ih =>
    cases k with
    | zero =>
      cases hk
      refine .cons (.inr ⟨?_, rfl⟩) hrest
      rcases hij with rfl | ⟨-, hnop⟩
      · exact ⟨x, y, rfl, hx⟩
      · cases hnop
    | succ k => exact .cons hij (ih hk)

/-- What is needed to take a copy out, and what comes of it. -/
theorem dropCopy?_eq_some (h : q.dropCopy? e = some q') :
    ∃ a, q.argAt? e.site = some a ∧ (q.body e.location)[e.index]? = some (.copy e.dst e.value) ∧
      q' = (q.modifyBlock e.location fun b => { b with body := b.body.set e.index .nop }).setArg
        e.site.block e.site.phi e.site.arg { a with value := e.value } := by
  rw [dropCopy?] at h
  split at h
  · next hfound =>
    obtain ⟨x, hx, rfl⟩ := Option.map_eq_some_iff.1 h
    obtain ⟨a, ha, rfl⟩ := onPhiArg?_eq_some hx
    refine ⟨a, ?_, ?_, rfl⟩
    · rw [phiArg?_eq, phis_modifyBlock_eq (by intro; rfl), ← phiArg?_eq] at ha
      exact ha
    · obtain ⟨block, hb, hi⟩ := Option.bind_eq_some_iff.1 hfound
      rw [body_of hb]
      exact hi
  · cases h

/-- A copy taken out. -/
theorem Removed.drop (h : Removed n q es p) (he : n ≤ e.dst) (hdrop : p.dropCopy? e = some q') :
    Removed n q (es ++ [e]) q' := by
  obtain ⟨a, ha, hi, hq'⟩ := dropCopy?_eq_some hdrop
  have hlt := lt_size_of_body hi
  have hsize : q'.blocks.size = p.blocks.size := by
    rw [hq', setArg, size_modifyBlock, size_modifyBlock]
  have hphis : ∀ b, (p.modifyBlock e.location fun b =>
      { b with body := b.body.set e.index .nop }).phis b = p.phis b :=
    phis_modifyBlock_eq (by intro; rfl)
  have hbody : ∀ b, q'.body b =
      if b = e.location then (p.body b).set e.index .nop else p.body b := fun b => by
    rw [hq', body_setArg]
    exact body_modifyBlock (g := (·.set e.index .nop)) hlt (fun _ => rfl) b
  -- the `nop` is counted where the copy was
  have hcopies : ∀ b, (p.body b).countP Instr.isCopy =
      (q'.body b).countP Instr.isCopy + if b = e.location then 1 else 0 := fun b => by
    rw [hbody]
    split
    · next hb => exact (countP_set Instr.isCopy (hb ▸ hi) .nop).symm
    · rfl
  have hnops : ∀ b, (q'.body b).countP (· == .nop) =
      (p.body b).countP (· == .nop) + if b = e.location then 1 else 0 := fun b => by
    rw [hbody]
    split
    · next hb => exact countP_set (· == .nop) (hb ▸ hi) .nop
    · rfl
  refine ⟨?_, hsize.trans h.size, fun b => ?_, fun b => ?_, ?_, ?_, fun b => ?_, fun s a' ha' => ?_⟩
  · rw [hq', ← h.vars]
    rfl
  · rw [hq', label?_setArg, ← h.labels]
    exact label?_modifyBlock (by intro; rfl) b
  · rw [hq', receivers_setArg, ← h.receivers]
    exact receivers_congr (hphis b)
  · rw [h.copies, count_of_block hsize.symm (hsize ▸ hlt) hcopies, List.length_append,
      List.length_singleton]
    omega
  · rw [count_of_block hsize hlt hnops, h.nops, List.length_append]
    rfl
  · rw [hbody]
    split
    · next hb => exact forall₂_set (h.body b) (hb ▸ hi) he
    · exact h.body b
  · rw [hq', argAt?_setArg ((argAt?_congr hphis _).trans ha), argAt?_congr hphis] at ha'
    split at ha'
    · next hs =>
      cases ha'
      exact .inr ⟨e, List.mem_append_right _ List.mem_cons_self, hs.symm, rfl⟩
    · refine (h.args s a' ha').imp id ?_
      rintro ⟨e', he', hsite⟩
      exact ⟨e', List.mem_append_left _ he', hsite⟩

/-- Several copies taken out. -/
theorem Removed.run (h : Removed n q es p) {fs : List EdgeCopy} (hfs : ∀ e ∈ fs, n ≤ e.dst)
    (hrun : fs.foldlM dropCopy? p = some q') : Removed n q (es ++ fs) q' := by
  induction fs generalizing p es with
  | nil =>
    cases hrun
    rwa [List.append_nil]
  | cons e fs ih =>
    rw [List.forall_mem_cons] at hfs
    rw [List.foldlM_cons, Option.bind_eq_bind, Option.bind_eq_some_iff] at hrun
    obtain ⟨p', hdrop, hrest⟩ := hrun
    rw [List.append_cons]
    exact ih (h.drop hfs.1 hdrop) hfs.2 hrest

end Program

/-! ### Merging -/

namespace Lowering

variable {p : Program} {l : Lowering} {o : Options} {g : Graph} {c : Partition} {m : Merging}

/-- **What merging counts is what it has taken out.**  These are copies that lowering made, each
between variables of one class, and there are none if copies are to stay. -/
theorem removed_mergeCopies (h : Account p l) (hg : g.Sound) (hc : c.Forest)
    (hsize : c.size = l.program.vars.size) (hrun : l.mergeCopies o g c = .ok m) :
    c.Grows m.classes ∧ ∃ es, Removed p.vars.size l.program es m.program ∧
      es.length = m.removed ∧ es.Sublist l.copies.toList ∧
      (∀ e ∈ es, m.classes.root e.value = m.classes.root e.dst) ∧ (o.merge = false → es = []) := by
  rw [mergeCopies] at hrun
  split at hrun
  · next ho =>
    have hfits : ∀ e ∈ l.copies.toList, Merging.Fits c e := by
      intro e he
      obtain ⟨-, hvalue, harg⟩ := h.records e he
      exact ⟨hsize ▸ hvalue, hsize ▸ h.args _ _ harg⟩
    rcases mergeCopies_cases (p := l.program) hg hc hfits with ⟨m', hm', hprog⟩ | ⟨stop, hstop, -⟩
    · cases hm'.symm.trans hrun
      refine ⟨hprog.coarsens.toGrows, _, (Removed.refl _ _).run (fun e he => ?_) hprog.program,
        ?_, ?_, ?_, ?_⟩
      · exact (h.records e (List.mem_of_mem_filter he)).1
      · exact hprog.removed.symm
      · exact List.filter_sublist
      · intro e he
        exact EdgeCopy.joined_iff.1 (List.mem_filter.1 he).2
      · intro hno
        rw [ho] at hno
        cases hno
    · cases hstop.symm.trans hrun
  · cases hrun
    exact ⟨.refl hc, [], Removed.refl _ _, rfl, List.nil_sublist _,
      fun e he => absurd he List.not_mem_nil, fun _ => rfl⟩

end Lowering

end ChordalAlloc
