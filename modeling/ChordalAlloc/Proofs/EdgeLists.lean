/-
ChordalAlloc/Proofs/EdgeLists.lean

The edges of a program, listed from both of their ends.

Both lists can be had in one sweep over the blocks (`Program.sweep`): a target
that exists and that the block has not named before is noted as a successor of
the block, and the block as a predecessor of the target.  The sweep gives the
same lists as `Program.flow`, which looks for the predecessors of each block
anew (`sweep_eq`).  What is known of successors comes from one fact, what a list
of names becomes when one more is read (`namesBelow_concat`): the lists have no
repeats, keep the order of the operands (`pairwise_namesBelow`), and can be
given new names before or after (`namesBelow_map`).

Hence what happens when a block is put on an edge (`Program.divert`).  One list
of successors takes the new name.  Lists of predecessors are ascending, so they
are known once their members are (`Program.pred_divert_target`,
`Program.pred_divert`).
-/
import Mathlib.Data.List.Sort
import ChordalAlloc.Proofs.Routing

namespace ChordalAlloc

/-! ### Names below a bound -/

/-- The names below `n`, each where it comes first. -/
def namesBelow (n : Nat) (ts : List Label) : List Label := (ts.filter (· < n)).eraseDups

section NamesBelow

variable {n m : Nat} {t : Label} {ts : List Label}

theorem mem_namesBelow : t ∈ namesBelow n ts ↔ t ∈ ts ∧ t < n := by
  simp [namesBelow]

/-- One more name counts if it is below the bound and new. -/
theorem namesBelow_concat (n : Nat) (ts : List Label) (t : Label) :
    namesBelow n (ts ++ [t]) =
      if t < n ∧ t ∉ namesBelow n ts then namesBelow n ts ++ [t] else namesBelow n ts := by
  rw [namesBelow, List.filter_append]
  by_cases ht : t < n
  · rw [List.filter_cons_of_pos (by simpa using ht), List.filter_nil, eraseDups_concat]
    simp [namesBelow, ht]
  · rw [List.filter_cons_of_neg (by simpa using ht), List.filter_nil, List.append_nil]
    simp [namesBelow, ht]

/-- The names stand in the order in which they first occur, so none stands there twice. -/
theorem pairwise_namesBelow (n : Nat) (ts : List Label) :
    (namesBelow n ts).Pairwise fun s t => ts.idxOf s < ts.idxOf t := by
  induction ts using List.reverseRecOn with
  | nil => exact List.Pairwise.nil
  | append_singleton ts t ih =>
    -- names that occurred before did so at the same place
    have hold : (namesBelow n ts).Pairwise fun s u =>
        (ts ++ [t]).idxOf s < (ts ++ [t]).idxOf u := by
      apply ih.imp_of_mem
      intro s u hs hu hlt
      rwa [List.idxOf_append_of_mem (mem_namesBelow.1 hs).1,
        List.idxOf_append_of_mem (mem_namesBelow.1 hu).1]
    rw [namesBelow_concat]
    split
    · next hnew =>
      have hts : t ∉ ts := fun hmem => hnew.2 (mem_namesBelow.2 ⟨hmem, hnew.1⟩)
      apply List.pairwise_append.2
      refine ⟨hold, List.pairwise_singleton _ _, fun s hs u hu => ?_⟩
      have hmem := (mem_namesBelow.1 hs).1
      rw [List.mem_singleton.1 hu, List.idxOf_append_of_mem hmem, List.idxOf_append_of_notMem hts]
      exact Nat.lt_add_right _ (List.idxOf_lt_length_of_mem hmem)
    · exact hold

/-- Names that stay apart under new names can be renamed before or after. -/
theorem namesBelow_map {f : Label → Label} (hn : ∀ t ∈ ts, t < n) (hm : ∀ t ∈ ts, f t < m)
    (hinj : ∀ s ∈ ts, ∀ t ∈ ts, f s = f t → s = t) :
    namesBelow m (ts.map f) = (namesBelow n ts).map f := by
  induction ts using List.reverseRecOn with
  | nil => rfl
  | append_singleton ts t ih =>
    have hsub : ∀ s ∈ ts, s ∈ ts ++ [t] := fun s hs => List.mem_append_left _ hs
    have hlast : t ∈ ts ++ [t] := List.mem_append_right _ (List.mem_singleton_self t)
    -- a name is new after renaming exactly if it was new before
    have hnew : f t ∈ (namesBelow n ts).map f ↔ t ∈ namesBelow n ts := by
      refine ⟨fun h => ?_, List.mem_map_of_mem⟩
      obtain ⟨s, hs, heq⟩ := List.mem_map.1 h
      exact hinj s (hsub s (mem_namesBelow.1 hs).1) t hlast heq ▸ hs
    have hrest := ih (fun s hs => hn s (hsub s hs)) (fun s hs => hm s (hsub s hs))
      fun s hs u hu => hinj s (hsub s hs) u (hsub u hu)
    rw [List.map_append, List.map_singleton, namesBelow_concat, namesBelow_concat, hrest]
    simp only [hnew, hn t hlast, hm t hlast, true_and]
    split
    · rw [List.map_append, List.map_singleton]
    · rfl

/-- A new name keeps the old ones apart. -/
theorem Label.redirect_inj {s x : Label} (hs : s < n) (ht : t < n)
    (h : s.redirect x n = t.redirect x n) : s = t := by
  unfold Label.redirect at h
  split at h
  · next hsx =>
    split at h
    · next htx => exact hsx.trans htx.symm
    · exact absurd h.symm (Nat.ne_of_lt ht)
  · split at h
    · exact absurd h (Nat.ne_of_lt hs)
    · exact h

theorem Label.redirect_lt (x : Label) (ht : t < n) : t.redirect x n < n + 1 := by
  unfold Label.redirect
  split
  · exact Nat.lt_succ_self n
  · exact Nat.lt_succ_of_lt ht

end NamesBelow

/-! ### One sweep for both directions -/

/-- Read one target of a block: unless it does not exist or was named before, it is a successor, and
the block is a predecessor of it. -/
def noteTarget (n : Nat) (label : Label) (s : List Label × Digraph) (t : Label) :
    List Label × Digraph :=
  if t < n ∧ t ∉ s.1 then (s.1 ++ [t], s.2.modify t (· ++ [label])) else s

/-- Read the targets of the next block. -/
def Flow.noteBlock (n : Nat) (f : Flow) (b : Block) : Flow :=
  let (ts, preds) := b.targets.foldl (noteTarget n b.label) ([], f.preds)
  { succs := f.succs.push ts, preds }

/-- No edges yet between `n` blocks, none of which was read. -/
def Flow.unread (n : Nat) : Flow := { succs := #[], preds := Array.replicate n [] }

/-- The edges of a program, both ways at once. -/
def Program.sweep (p : Program) : Flow :=
  p.blocks.foldl (Flow.noteBlock p.blocks.size) (Flow.unread p.blocks.size)

section Sweep

variable {n : Nat} {g : Digraph}

theorem Digraph.next_modify (g : Digraph) {t : Nat} (ht : t < g.size) (f : List Nat → List Nat)
    (u : Nat) : Digraph.next (g.modify t f) u = if u = t then f (g.next u) else g.next u := by
  simp only [Digraph.next, Array.getD_eq_getD_getElem?, Array.getElem?_modify]
  by_cases hut : u = t
  · subst hut
    simp [ht]
  · simp [hut, Ne.symm hut]

/-- Reading targets one by one finds the successors, and adds the block to the predecessors of
each. -/
theorem foldl_noteTarget (hg : g.size = n) (label : Label) (ts : List Label) :
    (ts.foldl (noteTarget n label) ([], g)).1 = namesBelow n ts ∧
      (ts.foldl (noteTarget n label) ([], g)).2.size = n ∧
      ∀ u, Digraph.next (ts.foldl (noteTarget n label) ([], g)).2 u =
        if u ∈ namesBelow n ts then g.next u ++ [label] else g.next u := by
  induction ts using List.reverseRecOn with
  | nil => exact ⟨rfl, hg, fun _ => rfl⟩
  | append_singleton ts t ih =>
    obtain ⟨hnames, hsize, hnext⟩ := ih
    rw [List.foldl_concat, noteTarget, hnames, namesBelow_concat]
    split
    · next hnew =>
      refine ⟨rfl, Array.size_modify.trans hsize, fun u => ?_⟩
      -- the row of a new target was not touched yet, so the block stands there once
      rw [Digraph.next_modify _ (hsize.symm ▸ hnew.1), hnext]
      by_cases hut : u = t
      · subst hut
        simp [hnew.2]
      · simp [hut]
    · exact ⟨hnames, hsize, hnext⟩

/-- Reading blocks one by one finds the successors of each and the predecessors among them. -/
theorem foldl_noteBlock (n : Nat) (bs : List Block) :
    (bs.foldl (Flow.noteBlock n) (Flow.unread n)).succs.toList = bs.map (·.succs n) ∧
      (bs.foldl (Flow.noteBlock n) (Flow.unread n)).preds.size = n ∧
      ∀ u, (bs.foldl (Flow.noteBlock n) (Flow.unread n)).pred u =
        (bs.filter fun b => (b.succs n).contains u).map (·.label) := by
  induction bs using List.reverseRecOn with
  | nil =>
    refine ⟨rfl, Array.size_replicate, fun u => ?_⟩
    show (Array.replicate n []).getD u [] = []
    rw [Array.getD_eq_getD_getElem?, Array.getElem?_replicate]
    split <;> rfl
  | append_singleton bs b ih =>
    obtain ⟨hsuccs, hsize, hpred⟩ := ih
    obtain ⟨hnames, hsize', hnext⟩ := foldl_noteTarget hsize b.label b.targets
    rw [List.foldl_concat]
    refine ⟨?_, hsize', fun u => ?_⟩
    · show (Array.push _ _).toList = _
      rw [Array.toList_push, hsuccs, hnames, List.map_append]
      rfl
    · apply (hnext u).trans
      rw [List.filter_append, List.map_append, ← hpred]
      have hmem : u ∈ b.succs n ↔ u ∈ namesBelow n b.targets := Iff.rfl
      by_cases hu : u ∈ namesBelow n b.targets
      · simp [Flow.pred, hmem, hu]
      · simp [Flow.pred, hmem, hu]

/-- **Sweeping over the blocks once gives both lists.** -/
theorem Program.sweep_eq (p : Program) : p.sweep = p.flow := by
  obtain ⟨hsuccs, hsize, hpred⟩ := foldl_noteBlock p.blocks.size p.blocks.toList
  have hsweep : p.blocks.toList.foldl (Flow.noteBlock p.blocks.size) (.unread p.blocks.size)
      = p.sweep := Array.foldl_toList _
  rw [hsweep] at hsuccs hsize
  simp only [hsweep] at hpred
  have hsuccs' : p.sweep.succs = p.flow.succs := by
    apply Array.toList_inj.1
    rw [hsuccs, flow, Array.toList_map]
  have hpreds : p.sweep.preds = p.flow.preds := by
    have hsize' : p.flow.preds.size = p.blocks.size := by simp [flow]
    apply Array.ext (hsize.trans hsize'.symm)
    intro u hu hu'
    have hrow : p.sweep.pred u = p.flow.pred u :=
      (hpred u).trans (pred_flow (hsize' ▸ hu')).symm
    simpa [Flow.pred, Digraph.next, Array.getD_eq_getD_getElem?, hu, hu'] using hrow
  show Flow.mk p.sweep.succs p.sweep.preds = Flow.mk p.flow.succs p.flow.preds
  rw [hsuccs', hpreds]

end Sweep

namespace Program

variable {p : Program} {a b x : Label}

/-! ### Both lists -/

theorem succ_flow (p : Program) (a : Label) :
    p.flow.succ a = namesBelow p.blocks.size (p.targets a) := by
  rcases h : p.blocks[a]? with - | block
  · have ha : p.blocks.size ≤ a := by simpa using h
    rw [targets, body_of_le ha]
    simp [flow, Flow.succ, Digraph.next, h, namesBelow]
  · rw [targets_of h]
    simp [flow, Flow.succ, Digraph.next, h, Block.succs, namesBelow]

/-- The last instruction of `a` is a terminator that names `b`. -/
def EndsIn (p : Program) (a b : Label) : Prop :=
  ∃ i, (p.body a).getLast? = some i ∧ i.isTerminator = true ∧ b ∈ i.targets

theorem mem_targets_iff : b ∈ p.targets a ↔ p.EndsIn a b := by
  rw [targets]
  constructor
  · intro h
    rcases hi : (p.body a).getLast? with - | i
    · rw [hi] at h
      exact absurd h List.not_mem_nil
    · rw [hi] at h
      refine ⟨i, hi, ?_, h⟩
      by_contra hterm
      rw [Option.map_some, Option.getD_some,
        Instr.targets_eq_nil (Bool.eq_false_of_not_eq_true hterm)] at h
      exact absurd h List.not_mem_nil
  · rintro ⟨i, hi, -, hb⟩
    rw [hi]
    exact hb

theorem pairwise_succ_flow (p : Program) (a : Label) :
    (p.flow.succ a).Pairwise fun b c => (p.targets a).idxOf b < (p.targets a).idxOf c := by
  rw [succ_flow]
  exact pairwise_namesBelow _ _

theorem mem_exits : b ∈ p.flow.exits ↔
    b < p.blocks.size ∧ ∀ t, p.EndsIn b t → p.blocks.size ≤ t := by
  rw [Flow.exits, List.mem_filter, List.mem_range, size_flow, List.isEmpty_iff,
    List.eq_nil_iff_forall_not_mem]
  apply and_congr_right
  intro _
  apply forall_congr'
  intro t
  rw [mem_succ_flow, Edge, mem_targets_iff, not_and, Nat.not_lt]

theorem pairwise_exits (f : Flow) : f.exits.Pairwise (· < ·) := List.pairwise_lt_range.filter _

/-! ### A block on an edge -/

/-- Append a block with the given instructions, and let `a` go there wherever it went to `x`. -/
def divert (p : Program) (body : List Instr) (a x : Label) : Program :=
  (p.freshBlock body).2.modifyBlock a (·.redirect x p.blocks.size)

theorem size_divert (p : Program) (body : List Instr) (a x : Label) :
    (p.divert body a x).blocks.size = p.blocks.size + 1 := by
  rw [divert, size_modifyBlock, size_freshBlock]

theorem Indexed.divert (hp : p.Indexed) (body : List Instr) (a x : Label) :
    (p.divert body a x).Indexed := by
  rw [indexed_iff_label?] at hp ⊢
  intro b l hb
  rw [Program.divert, label?_modifyBlock (f := (·.redirect x p.blocks.size)) fun _ => rfl,
    label?_freshBlock] at hb
  split at hb
  · exact (Option.some.inj hb).symm
  · exact hp b l hb

section Divert

variable {body : List Instr} (hbody : body.getLast? = some (.jump x)) (ha : a < p.blocks.size)

include hbody ha

theorem targets_divert (c : Label) : (p.divert body a x).targets c =
    if c = a then (p.targets a).map (·.redirect x p.blocks.size)
    else if c = p.blocks.size then [x] else p.targets c := by
  have hsplit := Lowering.body_split ha body x c
  rw [targets, divert, hsplit]
  split
  · rw [getLast?_modify, targets]
    rcases (p.body a).getLast? with - | i
    · rfl
    · exact Instr.targets_redirect i x p.blocks.size
  · split
    · rw [hbody]
      rfl
    · rfl

variable (hin : ∀ c t, t ∈ p.targets c → t < p.blocks.size)

include hin

/-- One list of successors takes the new name, and all others stay as they are. -/
theorem succ_divert {c : Label} (hc : c ≠ p.blocks.size) : (p.divert body a x).flow.succ c =
    if c = a then (p.flow.succ a).map (·.redirect x p.blocks.size) else p.flow.succ c := by
  rw [succ_flow, size_divert, targets_divert hbody ha]
  split
  · rw [succ_flow]
    exact namesBelow_map (hin a) (fun t ht => Label.redirect_lt x (hin a t ht))
      fun s hs t ht => Label.redirect_inj (hin a s hs) (hin a t ht)
  · -- the bound is higher by one, but no name reaches it
    rw [succ_flow]
    have hsame := namesBelow_map (f := id) (hin c)
      (fun t ht => Nat.lt_succ_of_lt (hin c t ht)) fun _ _ _ _ => id
    rwa [List.map_id, List.map_id] at hsame

/-- The edges are those of before, but that the one from `a` to `x` goes through the new block. -/
theorem edge_divert (hx : x ≤ p.blocks.size) {c t : Label} : (p.divert body a x).Edge c t ↔
    c = p.blocks.size ∧ t = x ∨ c = a ∧ t = p.blocks.size ∧ x ∈ p.targets a ∨
      p.Edge c t ∧ ¬ (c = a ∧ t = x) := by
  rw [Edge, size_divert, targets_divert hbody ha]
  by_cases hca : c = a
  · subst hca
    rw [if_pos rfl, List.mem_map]
    constructor
    · rintro ⟨⟨s, hs, rfl⟩, -⟩
      right
      unfold Label.redirect
      split
      · next hsx => exact .inl ⟨rfl, rfl, hsx ▸ hs⟩
      · next hsx => exact .inr ⟨⟨hs, hin c s hs⟩, fun h => hsx h.2⟩
    · rintro (⟨hc, -⟩ | ⟨-, rfl, hxa⟩ | ⟨hedge, hne⟩)
      · exact absurd hc (Nat.ne_of_lt ha)
      · exact ⟨⟨x, hxa, if_pos rfl⟩, Nat.lt_succ_self _⟩
      · exact ⟨⟨t, hedge.1, if_neg fun h => hne ⟨rfl, h⟩⟩, Nat.lt_succ_of_lt hedge.2⟩
  · rw [if_neg hca]
    split
    · next hc =>
      subst hc
      rw [List.mem_singleton]
      constructor
      · exact fun h => .inl ⟨rfl, h.1⟩
      · rintro (⟨-, rfl⟩ | ⟨hc, -⟩ | ⟨hedge, -⟩)
        · exact ⟨rfl, Nat.lt_succ_of_le hx⟩
        · exact absurd hc hca
        · exact absurd hedge.lt_size (Nat.lt_irrefl _)
    · next hc =>
      constructor
      · exact fun h => .inr (.inr ⟨⟨h.1, hin c t h.1⟩, fun hct => hca hct.1⟩)
      · rintro (⟨hc', -⟩ | ⟨hc', -⟩ | ⟨hedge, -⟩)
        · exact absurd hc' hc
        · exact absurd hc' hca
        · exact ⟨hedge.1, Nat.lt_succ_of_lt hedge.2⟩

/-- The block that was jumped to is now reached from the new block, and no longer from `a`. -/
theorem pred_divert_target (hp : p.Indexed) (hx : x ≤ p.blocks.size) :
    (p.divert body a x).flow.pred x =
      (p.flow.pred x).filter (fun c => c ≠ a) ++ [p.blocks.size] := by
  apply (pairwise_pred_flow (hp.divert body a x) x).eq_of_mem_iff
  · -- the new block has the largest number, so it comes last
    apply List.pairwise_append.2
    refine ⟨(pairwise_pred_flow hp x).filter _, List.pairwise_singleton _ _, fun c hc d hd => ?_⟩
    rw [List.mem_singleton.1 hd]
    exact ((mem_pred_flow hp).1 (List.mem_filter.1 hc).1).lt_size
  · intro c
    rw [mem_pred_flow (hp.divert body a x), edge_divert hbody ha hin hx, List.mem_append,
      List.mem_filter, mem_pred_flow hp, List.mem_singleton, decide_eq_true_eq]
    constructor
    · rintro (⟨hc, -⟩ | ⟨-, rfl, hxa⟩ | ⟨hedge, hne⟩)
      · exact .inr hc
      · -- the new block cannot have been named before
        exact absurd (hin a _ hxa) (Nat.lt_irrefl _)
      · exact .inl ⟨hedge, fun hca => hne ⟨hca, rfl⟩⟩
    · rintro (⟨hedge, hca⟩ | hc)
      · exact .inr (.inr ⟨hedge, fun h => hca h.1⟩)
      · exact .inl ⟨hc, rfl⟩

/-- Every other block but the new one is reached from where it was reached before. -/
theorem pred_divert (hp : p.Indexed) (hx : x ≤ p.blocks.size) {t : Label} (htx : t ≠ x)
    (ht : t ≠ p.blocks.size) : (p.divert body a x).flow.pred t = p.flow.pred t := by
  apply (pairwise_pred_flow (hp.divert body a x) t).eq_of_mem_iff (pairwise_pred_flow hp t)
  intro c
  rw [mem_pred_flow (hp.divert body a x), edge_divert hbody ha hin hx, mem_pred_flow hp]
  simp [htx, ht]

end Divert

/-- **The two lists of edges are dual and free of repeats.**  One sweep over the blocks finds both.
A block is listed as a successor exactly if the other is listed as a predecessor, which is the case
exactly if it exists and the last instruction of the other is a terminator that names it.
Successors stand in the order in which the operands name them first, predecessors and exits in
ascending order, and a block is an exit if it names no block that exists.  If all blocks exist that
are named, putting a block `y` on the way from `a` to `x` gives `x` the name `y` among the successors
of `a`, and takes `a` from the predecessors of `x` and adds `y`; apart from `y` itself, all other
lists stay as they are. -/
theorem flow_dual (p : Program) (hp : p.Indexed) :
    p.sweep = p.flow ∧
      (∀ a b, (b ∈ p.flow.succ a ↔ a ∈ p.flow.pred b) ∧
        (a ∈ p.flow.pred b ↔ p.EndsIn a b ∧ b < p.blocks.size)) ∧
      (∀ a, (p.flow.succ a).Nodup ∧
        (p.flow.succ a).Pairwise fun b c => (p.targets a).idxOf b < (p.targets a).idxOf c) ∧
      (∀ b, (p.flow.pred b).Pairwise (· < ·)) ∧
      p.flow.exits.Pairwise (· < ·) ∧
      (∀ b, b ∈ p.flow.exits ↔ b < p.blocks.size ∧ ∀ t, p.EndsIn b t → p.blocks.size ≤ t) ∧
      ((∀ b t, p.EndsIn b t → t < p.blocks.size) →
        ∀ body a x y q, body.getLast? = some (.jump x) → p.freshBlock body = (y, q) →
          a < p.blocks.size → x < q.blocks.size →
          ∃ f, (q.modifyBlock a (·.redirect x y)).flow = f ∧
            f.succ a = (p.flow.succ a).map (·.redirect x y) ∧
            f.pred x = (p.flow.pred x).filter (fun c => c ≠ a) ++ [y] ∧
            (∀ c, c ≠ a → c ≠ y → f.succ c = p.flow.succ c) ∧
            ∀ c, c ≠ x → c ≠ y → f.pred c = p.flow.pred c) := by
  have hmem : ∀ a b, a ∈ p.flow.pred b ↔ p.EndsIn a b ∧ b < p.blocks.size := by
    intro a b
    rw [mem_pred_flow hp, Edge, mem_targets_iff]
  refine ⟨p.sweep_eq, fun a b => ⟨?_, hmem a b⟩, fun a => ⟨?_, p.pairwise_succ_flow a⟩,
    pairwise_pred_flow hp, pairwise_exits _, fun b => mem_exits, ?_⟩
  · rw [mem_succ_flow, mem_pred_flow hp]
  · apply (p.pairwise_succ_flow a).imp
    rintro b _ hlt rfl
    exact Nat.lt_irrefl _ hlt
  · intro hends body a x y q hbody hfresh ha hx
    obtain rfl : p.blocks.size = y := congrArg Prod.fst hfresh
    obtain rfl : (p.freshBlock body).2 = q := congrArg Prod.snd hfresh
    have hin : ∀ b t, t ∈ p.targets b → t < p.blocks.size := fun b t ht =>
      hends b t (mem_targets_iff.1 ht)
    rw [size_freshBlock, Nat.lt_succ_iff] at hx
    refine ⟨(p.divert body a x).flow, rfl, ?_, pred_divert_target hbody ha hin hp hx,
      fun c hca hc => ?_, fun c hcx hc => pred_divert hbody ha hin hp hx hcx hc⟩
    · exact (succ_divert hbody ha hin (Nat.ne_of_lt ha)).trans (if_pos rfl)
    · exact (succ_divert hbody ha hin hc).trans (if_neg hca)

/-- A block that names two others more than once, one that does not end, and a loop. -/
def crossroads : Program where
  vars := #[{ id := 0 }, { id := 1 }]
  blocks := #[
    { label := 0, body := [.nop, .switch 0 [1, 2, 1] 2] },
    { label := 1, body := [.const 1 7] },
    { label := 2, body := [.branch 0 2 1] }]

theorem indexed_crossroads : crossroads.Indexed := by
  intro b block h
  rcases b with - | - | - | b <;> cases h <;> rfl

theorem endsIn_crossroads (b t : Label) (h : crossroads.EndsIn b t) : t < 3 := by
  have hall : ∀ b < 3, ∀ t ∈ crossroads.targets b, t < 3 := by decide
  have hmem := mem_targets_iff.2 h
  obtain ⟨i, hi, -⟩ := h
  exact hall b (lt_size_of_getLast? hi) t hmem

/-- A block on the way to the one that does not end takes its place in one list, and stands behind
the loop in the other. -/
theorem flow_dual_crossroads :
    crossroads.Indexed ∧ crossroads.flow.succ 0 = [1, 2] ∧ crossroads.flow.pred 1 = [0, 2] ∧
      crossroads.flow.exits = [1] ∧
      ∃ q, crossroads.freshBlock [.copy 1 0, .jump 1] = (3, q) ∧
        (q.modifyBlock 0 (·.redirect 1 3)).flow.succ 0 = [3, 2] ∧
        (q.modifyBlock 0 (·.redirect 1 3)).flow.pred 1 = [2, 3] := by
  have hsucc : crossroads.flow.succ 0 = [1, 2] := by decide +kernel
  have hpred : crossroads.flow.pred 1 = [0, 2] := by decide +kernel
  obtain ⟨-, -, -, -, -, -, hdivert⟩ := crossroads.flow_dual indexed_crossroads
  obtain ⟨f, rfl, hsucc', hpred', -⟩ := hdivert endsIn_crossroads [.copy 1 0, .jump 1] 0 1 3 _ rfl
    rfl (by decide) (by decide)
  rw [hsucc] at hsucc'
  rw [hpred] at hpred'
  exact ⟨indexed_crossroads, hsucc, hpred, by decide +kernel, _, rfl, hsucc', hpred'⟩

end Program

end ChordalAlloc
