/-
ChordalAlloc/Proofs/Summaries.lean

The summary of a block and the walk through it say the same.

Live sets are found with summaries, which a scan from the top of a block makes:
what is read before anything in the block sets it, and what is set.  Clashes are
found by a walk from the end of the block, which changes one live set
instruction by instruction.  Both take a set that is live at the end to the one
that is live at the top (`Block.liveTop_eq`), also if an instruction reads what
it sets, if a variable is set twice or is read after a phi of the same block has
set it, and if operands do not exist.

Every visit of a block sets both of its ends together, and every block is
visited before the visits run out, so a block's live set at the top is the
transfer of the one at its end (`solve_swept`).  That needs neither a solution
of the equations nor blocks that know their predecessors.
-/
import ChordalAlloc.Proofs.Liveness

namespace ChordalAlloc

/-! ### One block -/

theorem IndexSet.capacity_foldl_erase (is : List Nat) (s : IndexSet) :
    (is.foldl erase s).capacity = s.capacity := by
  induction is generalizing s with
  | nil => rfl
  | cons k is ih => rw [List.foldl_cons, ih, capacity_erase]

theorem IndexSet.contains_foldl_erase (is : List Nat) (s : IndexSet) (i : Nat) :
    (is.foldl erase s).contains i = true ↔ s.contains i = true ∧ i ∉ is := by
  induction is generalizing s with
  | nil => simp
  | cons k is ih =>
    rw [List.foldl_cons, ih, contains_erase, Bool.and_eq_true, Bool.not_eq_true',
      decide_eq_false_iff_not, List.mem_cons, not_or, and_assoc, ← ne_eq, ne_comm]

/-- The variables live at the top of a block, given those at its end: walk back through the
instructions, then take out what the phis set. -/
def Block.liveTop (b : Block) (out : IndexSet) : IndexSet :=
  (b.phis.map (·.dst)).foldl IndexSet.erase (walkBack b.body out).1

/-- The variables live at the top according to a summary: those that are read, and those at the end
that are not set. -/
def Summary.transfer (s : Summary) (out : IndexSet) : IndexSet :=
  (out.diff s.written).union s.exposed

/-- **A block is summed up rightly.** -/
theorem Block.liveTop_eq (b : Block) (out : IndexSet) :
    b.liveTop out = (b.summary out.capacity).transfer out := by
  have hcap : (b.liveTop out).capacity = out.capacity := by
    rw [liveTop, IndexSet.capacity_foldl_erase, capacity_walkBack]
  have hcap' : ((b.summary out.capacity).transfer out).capacity = out.capacity := by
    rw [Summary.transfer, IndexSet.capacity_union, IndexSet.capacity_diff]
  refine IndexSet.ext_contains (hcap.trans hcap'.symm) fun v => ?_
  rw [Bool.eq_iff_iff]
  by_cases hv : v < out.capacity
  · obtain ⟨hexposed, hwritten⟩ := b.contains_summary hv
    have htransfer : ((b.summary out.capacity).transfer out).contains v = true ↔
        out.contains v = true ∧ (b.summary out.capacity).written.contains v = false ∨
          (b.summary out.capacity).exposed.contains v = true := by
      simp [Summary.transfer, hv]
    -- a variable is live at the top if no phi sets it and the instructions read it first, or if
    -- it is live at the end and neither phis nor instructions set it
    rw [htransfer, ← Bool.not_eq_true, hexposed, hwritten, liveTop,
      IndexSet.contains_foldl_erase, contains_walkBack hv,
      @liveBefore_iff v (out.contains v = true)]
    push Not
    constructor
    · rintro ⟨hread | ⟨hset, hout⟩, hphi⟩
      · exact .inr ⟨hphi, hread⟩
      · exact .inl ⟨hout, hphi, hset⟩
    · rintro (⟨hout, hphi, hset⟩ | ⟨hphi, hread⟩)
      · exact ⟨.inr ⟨hset, hout⟩, hphi⟩
      · exact ⟨.inl hread, hphi⟩
  · exact ⟨fun h => absurd (hcap ▸ IndexSet.lt_capacity h) hv,
      fun h => absurd (hcap' ▸ IndexSet.lt_capacity h) hv⟩

/-! ### Both ends of a block -/

namespace Equations

variable {e : Equations} {f : Flow}

/-- Except for the blocks that are still to be visited, the top of a block is the transfer of its
end. -/
structure Swept (e : Equations) (f : Flow) (known : Solution) (pending : List Label) : Prop where
  ins_size : known.ins.size = f.size
  outs_size : known.outs.size = f.size
  uniform : Uniform e known.ins
  outs : ∀ b, (known.outs.getD b e.initial).capacity = e.capacity
  paired : ∀ b, b < f.size → b ∉ pending →
    known.ins.getD b e.initial = e.through b (known.outs.getD b e.initial)

theorem Swept.visit {known : Solution} {pending pending' rest : List Label} {b : Label}
    (h : Swept e f known pending) (hb : b < f.size)
    (hpending : ∀ c ∈ pending, c ≠ b → c ∈ pending') :
    Swept e f (e.visit f known b rest).known pending' := by
  have hins : ∀ c, (e.visit f known b rest).known.ins.getD c e.initial =
      if c = b then e.through b (e.gather f known.ins b) else known.ins.getD c e.initial :=
    getD_setIfInBounds (h.ins_size.symm ▸ hb) _ _
  have houts : ∀ c, (e.visit f known b rest).known.outs.getD c e.initial =
      if c = b then e.gather f known.ins b else known.outs.getD c e.initial :=
    getD_setIfInBounds (h.outs_size.symm ▸ hb) _ _
  refine ⟨Array.size_setIfInBounds.trans h.ins_size, Array.size_setIfInBounds.trans h.outs_size,
    ⟨h.uniform.boundary, fun c => ?_⟩, fun c => ?_, fun c hc hnot => ?_⟩
  · rw [hins]
    split
    · rw [capacity_through, capacity_gather h.uniform]
    · exact h.uniform.ins c
  · rw [houts]
    split
    · exact capacity_gather h.uniform b
    · exact h.outs c
  · rw [hins, houts]
    by_cases hcb : c = b
    · rw [if_pos hcb, if_pos hcb, hcb]
    · rw [if_neg hcb, if_neg hcb]
      exact h.paired c hc fun hmem => hnot (hpending c hmem hcb)

/-- Blocks go to the end of the queue. -/
theorem exists_foldl_lineUp (n : Nat) (bs queue : List Label) :
    ∃ later, bs.foldl (lineUp n) queue = queue ++ later := by
  induction bs generalizing queue with
  | nil => exact ⟨[], (List.append_nil queue).symm⟩
  | cons b bs ih =>
    obtain ⟨later, hlater⟩ := ih (lineUp n queue b)
    rw [List.foldl_cons, hlater, lineUp]
    split
    · exact ⟨b :: later, List.append_assoc _ _ _⟩
    · exact ⟨later, rfl⟩

theorem queue_visit (known : Solution) (b : Label) (rest : List Label) :
    ∃ later, (e.visit f known b rest).queue = rest ++ later := by
  simp only [Equations.visit]
  split
  · exact ⟨[], (List.append_nil rest).symm⟩
  · exact exists_foldl_lineUp f.size (f.pred b) rest

/-- The blocks at the front of the queue are visited in as many rounds as there are, whatever is
queued behind them. -/
theorem Swept.run {s : Search} {pending later : List Label} {k : Nat}
    (h : Swept e f s.known pending) (hq : s.queue = pending ++ later)
    (hlt : ∀ b ∈ s.queue, b < f.size) (hk : pending.length ≤ k) :
    Swept e f (e.run f k s) [] := by
  induction k generalizing s pending later with
  | zero =>
    obtain rfl := List.eq_nil_of_length_eq_zero (Nat.le_zero.1 hk)
    exact h
  | succ k ih =>
    rcases hqueue : s.queue with - | ⟨b, rest⟩
    · obtain ⟨rfl, -⟩ := List.append_eq_nil_iff.1 (hq.symm.trans hqueue)
      simp only [Equations.run, hqueue]
      exact h
    · have hb : b < f.size := hlt b (hqueue ▸ List.mem_cons_self)
      have hlt' : ∀ c ∈ (e.visit f s.known b rest).queue, c < f.size := by
        intro c hc
        rcases mem_queue_visit.1 hc with hc | ⟨-, -, hc⟩
        · exact hlt c (hqueue ▸ List.mem_cons_of_mem b hc)
        · exact hc
      obtain ⟨more, hmore⟩ := queue_visit (e := e) (f := f) s.known b rest
      simp only [Equations.run, hqueue]
      cases pending with
      | nil =>
        have hnow : Swept e f (e.visit f s.known b rest).known [] :=
          h.visit hb fun c hc => absurd hc List.not_mem_nil
        exact ih hnow (List.nil_append _).symm hlt' (Nat.zero_le k)
      | cons c pending =>
        rw [hqueue, List.cons_append] at hq
        obtain ⟨rfl, rfl⟩ := List.cons.inj hq
        rw [List.append_assoc] at hmore
        refine ih (h.visit hb fun c hc hne => ?_) hmore hlt' (Nat.le_of_succ_le_succ hk)
        exact (List.mem_cons.1 hc).resolve_left hne

/-- **The top of every block is the transfer of its end.** -/
theorem solve_swept (hb : e.boundary.capacity = e.capacity) : Swept e f (e.solve f) [] := by
  have start := inv_start (f := f) hb
  have houts : ∀ b, ((e.start f).known.outs.getD b e.initial).capacity = e.capacity := by
    intro b
    simp only [Equations.start, Array.getD_eq_getD_getElem?, Array.getElem?_map]
    rcases (Array.range f.size)[b]? with - | c
    · rfl
    · rw [Option.map_some, Option.getD_some]
      split
      · exact hb
      · rfl
  have hall : ∀ b, b < f.size → b ∈ (e.start f).queue := fun b hlt =>
    mem_foldl_lineUp.2 (.inr ⟨List.mem_append_right _ (List.mem_range.2 hlt), hlt⟩)
  have hswept : Swept e f (e.start f).known (e.start f).queue :=
    ⟨start.ins_size, start.outs_size, start.uniform, houts,
      fun b hlt hnot => absurd (hall b hlt) hnot⟩
  refine hswept.run (List.append_nil _).symm start.queue_lt ?_
  exact (length_le_of_queue start.nodup start.queue_lt).trans (Nat.le_add_right _ _)

end Equations

namespace Program

theorem swept_liveness (p : Program) :
    Equations.Swept p.liveEquations p.flow p.liveness [] :=
  Equations.solve_swept rfl

/-- The equation of a block that carries its own position is the transfer of its summary. -/
theorem through_liveEquations {p : Program} {k : Label} {b : Block} (hb : p.blocks[k]? = some b)
    (hlabel : b.label = k) (out : IndexSet) :
    p.liveEquations.through k out = (b.summary p.vars.size).transfer out := by
  rw [Equations.through, gen_liveEquations hb hlabel, kill_liveEquations hb hlabel]
  rfl

/-- **Summaries and walks agree.**  For every block of every program and every set of variables live
at its end, the walk back through the block, without what its phis set, ends with the set that the
summary of the block gives.  If the block carries its own position, this is the equation that is
solved for it, so the walk from what is found live at its end, which gives the clashes of the
instructions and meets the phis on the way, ends with what is found live at its top. -/
theorem liveTop_transfer (p : Program) (k : Label) (b : Block) (hb : p.blocks[k]? = some b) :
    (∃ s, p.summaries[k]? = some s ∧
      ∀ out, out.capacity = p.vars.size → b.liveTop out = s.transfer out) ∧
    (b.label = k →
      (∀ out, out.capacity = p.vars.size → b.liveTop out = p.liveEquations.through k out) ∧
      ∃ top bottom live pairs, p.liveness.ins[k]? = some top ∧ p.liveness.outs[k]? = some bottom ∧
        walkBack b.body bottom = (live, pairs) ∧
        b.clashes bottom = pairs ++ phiClashes live (b.phis.map (·.dst)) ∧
        (b.phis.map (·.dst)).foldl IndexSet.erase live = top) := by
  have hwalk : ∀ out, out.capacity = p.vars.size →
      b.liveTop out = (b.summary p.vars.size).transfer out := by
    intro out hout
    rw [b.liveTop_eq, hout]
  refine ⟨⟨_, ?_, hwalk⟩, fun hlabel => ⟨fun out hout => ?_, ?_⟩⟩
  · rw [summaries, Array.getElem?_map, hb, Option.map_some]
  · rw [hwalk out hout, through_liveEquations hb hlabel]
  · have hswept := p.swept_liveness
    have hk : k < p.flow.size := by
      rw [size_flow]
      exact (Array.getElem?_eq_some_iff.1 hb).1
    have hread : ∀ {sets : Array IndexSet}, sets.size = p.flow.size →
        sets[k]? = some (sets.getD k p.liveEquations.initial) := by
      intro sets hsize
      rw [Array.getD_eq_getD_getElem?, Array.getElem?_eq_getElem (hsize.symm ▸ hk),
        Option.getD_some]
    refine ⟨_, _, _, _, hread hswept.ins_size, hread hswept.outs_size, rfl, rfl, ?_⟩
    rw [hswept.paired k hk List.not_mem_nil, through_liveEquations hb hlabel,
      ← hwalk _ (hswept.outs k)]
    rfl

/-- The phi's variable is read and set again, an instruction reads what it sets, and some variables
and blocks do not exist. -/
def knotted : Block where
  label := 1
  phis := [⟨0, [⟨0, 1⟩, ⟨1, 7⟩]⟩, ⟨6, []⟩]
  body := [.copy 2 0, .binary .add 1 1 9, .const 0 4, .copy 1 2, .switch 3 [1, 8] 2]

/-- The outer blocks carry each other's labels. -/
def mislabelled : Program where
  vars := #[{ id := 0 }, { id := 1 }, { id := 2 }, { id := 3 }]
  blocks := #[{ label := 2, body := [.call none "log" [2], .jump 1] }, knotted,
    { label := 0, body := [.ret (some 1)] }]

theorem outs_mislabelled :
    mislabelled.liveness.outs[1]? = some (IndexSet.ofList 4 [1, 2, 3]) := by
  cbv

theorem ins_mislabelled :
    mislabelled.liveness.ins[1]? = some (IndexSet.ofList 4 [1, 3]) := by
  cbv

theorem liveTop_transfer_mislabelled :
    mislabelled.blocks[1]? = some knotted ∧ knotted.label = 1 ∧
      (∃ s, mislabelled.summaries[1]? = some s ∧
        ∀ out, out.capacity = 4 → knotted.liveTop out = s.transfer out) ∧
      (∀ out, out.capacity = 4 → knotted.liveTop out = mislabelled.liveEquations.through 1 out) ∧
      mislabelled.liveness.outs[1]? = some (IndexSet.ofList 4 [1, 2, 3]) ∧
      mislabelled.liveness.ins[1]? = some (IndexSet.ofList 4 [1, 3]) ∧
      knotted.liveTop (IndexSet.ofList 4 [1, 2, 3]) = IndexSet.ofList 4 [1, 3] := by
  have hb : mislabelled.blocks[1]? = some knotted := rfl
  obtain ⟨hsummary, hsolved⟩ := mislabelled.liveTop_transfer 1 knotted hb
  obtain ⟨hequation, top, bottom, live, pairs, htop, hbottom, hlive, -, herase⟩ := hsolved rfl
  obtain rfl := Option.some.inj (outs_mislabelled.symm.trans hbottom)
  obtain rfl := Option.some.inj (ins_mislabelled.symm.trans htop)
  refine ⟨hb, rfl, hsummary, hequation, outs_mislabelled, ins_mislabelled, ?_⟩
  rw [Block.liveTop, hlive]
  exact herase

end Program

end ChordalAlloc
