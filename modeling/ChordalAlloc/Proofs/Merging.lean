/-
ChordalAlloc/Proofs/Merging.lean

Merging succeeds, and its classes can be colored.

`Program.Merged` gathers what coloring needs to know of a program `q`, of
classes `c` of its variables, and of a graph `g`: phis stay within classes,
no class has an edge of `g` inside, and whatever clashes in `q` is kept apart
by an edge of `g` between the two classes.  The graph is that of the lowered
program, and is not computed again while copies are dropped; the last point
says that nothing is lost by this.

What merging does to any program was said before (`Merging.Progress`): classes
without adjacent members become one, and then the copies within a class are
taken out.  The copies of a lowered program can all be taken out, so nothing
stops the work (`Program.Staged.not_stuck`), and the two halves of it are kept
apart here: first the classes grow (`Merged.grow`), then the copies go
(`Staged.dropAll`).  So the conflicts of the program that results are among
those of the lowered one, class by class (`Program.mergeCopies_conflicts`).
-/
import ChordalAlloc.Proofs.KeptCopies
import ChordalAlloc.Proofs.PhiClasses

namespace ChordalAlloc

namespace Program

/-- The classes `c` of the variables of `q` are fit to be colored along the edges of `g`. -/
structure Merged (n : Nat) (g : Graph) (q : Program) (c : Partition) : Prop where
  forest : c.Forest
  size : c.size = q.vars.size
  graph : g.size = q.vars.size
  phis : ∀ b φ a, φ ∈ q.phis b → a ∈ φ.args → c.root φ.dst = c.root a.value
  apart : ∀ u v, g.adjacent u v = true → c.root u ≠ c.root v
  covers : ∀ u v, u ≠ v → q.Clash n u v →
    ∃ u' v', g.adjacent u' v' = true ∧ c.root u' = c.root u ∧ c.root v' = c.root v

variable {p q q' : Program} {n : Nat} {g : Graph} {c c' : Partition} {cs : List EdgeCopy}
variable {e : EdgeCopy}

/-- At the beginning the classes are those of the phis. -/
theorem Lowered.merged (h : Lowered p n q cs) :
    Merged n (q.interference q.liveness n) q q.phiClasses.classes := by
  have hq := h.refines.wellFormed
  obtain ⟨hforest, hsize, htied, -⟩ := phiClasses_spec hq
  refine ⟨hforest, hsize, size_interference q n, htied, fun u v => h.root_ne,
    fun u v huv hclash => ?_⟩
  obtain ⟨hu, hv⟩ := hq.clash_lt hclash
  exact ⟨u, v, (adjacent_interference hq.indexed hq.entry u v).2 ⟨huv, hu, hv, .inl hclash⟩,
    rfl, rfl⟩

/-- Classes without an edge between them may be joined. -/
theorem Merged.grow (h : Merged n g q c) (hc : c.Grows c')
    (hapart : ∀ u v, g.adjacent u v = true → c'.root u ≠ c'.root v) : Merged n g q c' where
  forest := hc.forest
  size := hc.size.trans h.size
  graph := h.graph
  phis b φ a hφ ha := hc.keep _ _ (h.phis b φ a hφ ha)
  apart := hapart
  covers u v huv hclash := by
    obtain ⟨u', v', hadj, hu, hv⟩ := h.covers u v huv hclash
    exact ⟨u', v', hadj, hc.keep _ _ hu, hc.keep _ _ hv⟩

/-- A copy between variables of one class may be dropped. -/
theorem Merged.drop (h : Merged n g q c) (hd : CopyDropped q q' e) (hrec : q.Recorded cs e)
    (hq : q.WellFormed n) (hroot : c.root e.value = c.root e.dst) : Merged n g q' c where
  forest := h.forest
  size := by
    rw [hd.vars]
    exact h.size
  graph := by
    rw [hd.vars]
    exact h.graph
  phis b φ' a hφ' ha := by
    obtain ⟨k, hk⟩ := List.mem_iff_getElem?.1 hφ'
    obtain ⟨φ, hφ, hdst, -, hargs⟩ := hd.phi_of hk
    obtain ⟨z, hz, heq⟩ := hargs a.source a.value ha
    have hφ := h.phis b φ _ (List.mem_of_getElem? hφ) hz
    rw [hdst, hφ]
    rcases heq with heq | ⟨-, -, hx, hy⟩
    · rw [heq]
    · rw [hx, hy, hroot]
  apart := h.apart
  covers u v huv hclash := by
    rcases hd.clash hrec hq hclash with hclash | ⟨rfl, hne, hclash⟩
    · exact h.covers u v huv hclash
    · rw [hroot]
      exact h.covers u e.dst hne hclash

/-! ### Taking copies out -/

/-- A recorded copy can be taken out. -/
theorem Recorded.dropCopy? (h : q.Recorded cs e) :
    ∃ q', q.dropCopy? e = some q' ∧ CopyDropped q q' e := by
  obtain ⟨block, hb⟩ := exists_block h.lt_size
  have hfound : (q.blocks[e.location]?.bind fun b => b.body[e.index]?)
      = some (.copy e.dst e.value) := by
    rw [hb, Option.bind_some, ← body_of hb]
    exact h.instr
  have hbody := body_modifyBlock (f := fun b => { b with body := b.body.set e.index .nop })
    h.lt_size (g := fun is => is.set e.index .nop) (fun _ => rfl)
  have hphis : ∀ b, (q.modifyBlock e.location
      fun b => { b with body := b.body.set e.index .nop }).phis b = q.phis b := by
    intro b
    apply phis_modifyBlock_eq
    intro x
    rfl
  have harg : (q.modifyBlock e.location
      fun b => { b with body := b.body.set e.index .nop }).phiArg? e.site.block e.site.phi
        e.site.arg = some ⟨e.location, e.dst⟩ := by
    rw [phiArg?_eq, hphis, ← phiArg?_eq]
    exact h.arg
  rw [Program.dropCopy?, if_pos hfound, onPhiArg?_eq harg]
  refine ⟨_, rfl, ⟨h.arg, ?_, fun b hb => ?_⟩, rfl, ?_, fun hindexed => ?_, ?_, fun b hb => ?_⟩
  · show (setArg _ _ _ _ _).phis _ = _
    rw [phis_setArg, if_pos rfl, hphis]
  · show (setArg _ _ _ _ _).phis _ = _
    rw [phis_setArg, if_neg hb, hphis]
  · show (setArg _ _ _ _ _).blocks.size = _
    rw [setArg, size_modifyBlock, size_modifyBlock]
  · refine hindexed.of_label? fun b => ?_
    show (setArg _ _ _ _ _).label? _ = _
    rw [label?_setArg]
    apply label?_modifyBlock
    intro x
    rfl
  · show (setArg _ _ _ _ _).body _ = _
    rw [body_setArg, hbody, if_pos rfl]
  · show (setArg _ _ _ _ _).body _ = _
    rw [body_setArg, hbody, if_neg hb]

/-- Recorded copies can be taken out one after the other.  Classes in which each of them has both of
its variables stay fit to be colored. -/
theorem Staged.dropAll {es : List EdgeCopy} (h : Staged p n q cs) (hsub : es ⊆ cs)
    (hnodup : es.Nodup) : ∃ q', es.foldlM Program.dropCopy? q = some q' ∧ Refines n p q' ∧
      ∀ g c, (∀ e ∈ es, c.root e.value = c.root e.dst) → Merged n g q c → Merged n g q' c := by
  induction es generalizing q cs with
  | nil => exact ⟨q, rfl, h.refines, fun g c _ => id⟩
  | cons e es ih =>
    obtain ⟨he, hsub⟩ := List.cons_subset.1 hsub
    obtain ⟨hnew, hnodup⟩ := List.nodup_cons.1 hnodup
    have hrec := h.records e he
    obtain ⟨q₁, hdrop, hd⟩ := hrec.dropCopy?
    have hrest : es ⊆ cs.filter (· ≠ e) := by
      intro c hc
      refine List.mem_filter.2 ⟨hsub hc, decide_eq_true ?_⟩
      rintro rfl
      exact hnew hc
    obtain ⟨q₂, hrun, hr, hm⟩ := ih (h.drop he hd) hrest hnodup
    refine ⟨q₂, ?_, hr, fun g c hroot hmerged => ?_⟩
    · rw [List.foldlM_cons, hdrop]
      exact hrun
    · obtain ⟨hone, hroot⟩ := List.forall_mem_cons.1 hroot
      exact hm g c hroot (hmerged.drop hd hrec h.refines.wellFormed hone)

/-- So nothing can stop the work on them. -/
theorem Staged.not_stuck (h : Staged p n q cs) : ¬ q.Stuck cs := by
  rintro ⟨es, e, q₁, hsub, hrun, hstop⟩
  obtain ⟨q₂, hall, -⟩ := h.dropAll hsub.subset (h.nodup.of_map.sublist hsub)
  rw [List.foldlM_append, hrun] at hall
  simp [hstop] at hall

/-- The variables of a recorded copy exist. -/
theorem Staged.fits (h : Staged p n q cs) (hsize : c.size = q.vars.size) (he : e ∈ cs) :
    Merging.Fits c e := by
  have hq := h.refines.wellFormed
  have hrec := h.records e he
  refine ⟨?_, ?_⟩
  · rw [hsize]
    exact hq.reads_lt (.inl ⟨_, _, List.mem_of_getElem? hrec.instr, List.mem_singleton.2 rfl⟩)
  · rw [hsize]
    exact hrec.dst_lt hq

end Program

/-- **Merging a lowered program succeeds.** -/
theorem Program.mergeCopies_spec {p q : Program} {n : Nat} {cs : List EdgeCopy}
    (h : Lowered p n q cs) : ∃ m,
      q.mergeCopies cs (q.interference q.liveness n) q.phiClasses.classes = .ok m ∧
      Refines n p m.program ∧
      Merged n (q.interference q.liveness n) m.program m.classes := by
  have hmerged := h.merged
  have hg := sound_interference q n
  rcases mergeCopies_cases (p := q) hg hmerged.forest fun e => h.fits hmerged.size with
    ⟨m, hrun, hm⟩ | ⟨-, -, -, hstuck⟩
  swap
  · exact absurd hstuck h.not_stuck
  -- first the classes grow, then the copies within a class go
  have hgrown : Merged n (q.interference q.liveness n) q m.classes := by
    refine hmerged.grow hm.coarsens.toGrows fun u v hadj => ?_
    have hlt := Graph.lt_size_of_adjacent hadj
    have hlt' := hg.lt_size hadj
    rw [hmerged.graph, ← hmerged.size] at hlt hlt'
    exact hm.coarsens.apart u v hlt hlt' hadj (hmerged.apart u v hadj)
  have hsub : cs.filter (·.joined m.classes) ⊆ cs := List.filter_subset_self cs
  obtain ⟨q', hdrops, hr, hkeep⟩ := h.dropAll hsub (h.nodup.of_map.filter _)
  obtain rfl : m.program = q' := Option.some.inj (hm.program.symm.trans hdrops)
  refine ⟨_, hrun, hr, hkeep _ _ (fun e he => ?_) hgrown⟩
  exact EdgeCopy.joined_iff.1 (List.mem_filter.1 he).2

/-- What clashes in a merged program is kept apart by an edge of the graph, between classes that
differ. -/
theorem Program.Merged.of_adjacent {n : Nat} {g : Graph} {q : Program} {c : Partition}
    (h : Merged n g q c) (hg : g.Sound) (hq : q.WellFormed n) {u v : Var}
    (hadj : (q.interference q.liveness n).adjacent u v = true) :
    c.root u ≠ c.root v ∧
      ∃ u' v', g.adjacent u' v' = true ∧ c.root u' = c.root u ∧ c.root v' = c.root v := by
  obtain ⟨huv, -, -, hclash⟩ := (adjacent_interference hq.indexed hq.entry u v).1 hadj
  have hcover : ∃ u' v', g.adjacent u' v' = true ∧ c.root u' = c.root u ∧
      c.root v' = c.root v := by
    rcases hclash with hclash | hclash
    · exact h.covers u v huv hclash
    · obtain ⟨v', u', hadj', hv, hu⟩ := h.covers v u huv.symm hclash
      exact ⟨u', v', hg.symm v' u' hadj', hu, hv⟩
  refine ⟨?_, hcover⟩
  obtain ⟨u', v', hadj', hu, hv⟩ := hcover
  rw [← hu, ← hv]
  exact h.apart u' v' hadj'

/-- **Merging adds no conflict.**  Copies are dropped on the strength of the graph of the lowered
program.  In the program that results, analysed anew, an edge joins only variables of different
classes that were joined by an edge of that graph already.  So colors of the classes that are
proper for the old graph are proper for the new one. -/
theorem Program.mergeCopies_conflicts (p : Program) (hp : p.Indexed) (n : Nat)
    (hcheck : p.check n = .ok ()) :
    ∃ l m, p.lower = .ok l ∧
      l.program.mergeCopies l.copies.toList (l.program.interference l.program.liveness n)
        l.program.phiClasses.classes = .ok m ∧
      (∀ u v, (m.program.interference m.program.liveness n).adjacent u v = true →
        m.classes.root u ≠ m.classes.root v ∧
          ∃ u' v', (l.program.interference l.program.liveness n).adjacent u' v' = true ∧
            m.classes.root u' = m.classes.root u ∧ m.classes.root v' = m.classes.root v) ∧
      ∀ color : Nat → Nat,
        (∀ u v, (l.program.interference l.program.liveness n).adjacent u v = true →
          color (m.classes.root u) ≠ color (m.classes.root v)) →
        ∀ u v, (m.program.interference m.program.liveness n).adjacent u v = true →
          color (m.classes.root u) ≠ color (m.classes.root v) := by
  obtain ⟨l, hl, h⟩ := lower_spec (wellFormed_of_check hp hcheck)
  obtain ⟨m, hm, hrefines, hmerged⟩ := mergeCopies_spec h
  have hconflict := fun u v => hmerged.of_adjacent (sound_interference l.program n)
    hrefines.wellFormed (u := u) (v := v)
  refine ⟨l, m, hl, hm, hconflict, fun color hcolor u v hadj => ?_⟩
  obtain ⟨-, u', v', hadj', hu, hv⟩ := hconflict u v hadj
  rw [← hu, ← hv]
  exact hcolor u' v' hadj'

theorem mergeCopies_conflicts_swapLoop :
    swapLoop.check 0 = .ok () ∧ ∃ l m, swapLoop.lower = .ok l ∧
      l.program.mergeCopies l.copies.toList (l.program.interference l.program.liveness 0)
        l.program.phiClasses.classes = .ok m ∧
      (∀ u v, (m.program.interference m.program.liveness 0).adjacent u v = true →
        m.classes.root u ≠ m.classes.root v ∧
          ∃ u' v', (l.program.interference l.program.liveness 0).adjacent u' v' = true ∧
            m.classes.root u' = m.classes.root u ∧ m.classes.root v' = m.classes.root v) ∧
      ∀ color : Nat → Nat,
        (∀ u v, (l.program.interference l.program.liveness 0).adjacent u v = true →
          color (m.classes.root u) ≠ color (m.classes.root v)) →
        ∀ u v, (m.program.interference m.program.liveness 0).adjacent u v = true →
          color (m.classes.root u) ≠ color (m.classes.root v) :=
  ⟨check_swapLoop, swapLoop.mergeCopies_conflicts indexed_swapLoop 0 check_swapLoop⟩

end ChordalAlloc
