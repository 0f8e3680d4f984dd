/-
ChordalAlloc/Proofs/Ways.lean

Live sets and interference in terms of ways through a program.

From afar a way leads from block to block along edges.  A variable is live at
the end of a block if some way from there comes to a block that reads it, and
no block in between sets it (`Program.Way`).  From nearby a way leads from
position to position, within a block and over its end (`Program.Passes`), and
a variable is live at a position if a way from there leads to a read
(`Program.ReadAhead`).

Neither notion mentions sets of variables or an order in which blocks are
visited.  The live sets hold exactly the variables with a way to a read
(`Program.liveness_ways`), and the interference graph has exactly the edges
that ways to reads account for (`Program.analyse_exact`).  Nothing is asked
of the program but that blocks carry their positions: variables and targets
that do not exist lead nowhere and count for nothing.
-/
import Mathlib.Logic.Relation
import ChordalAlloc.Proofs.Interference

namespace ChordalAlloc

/-- What is live although nothing is live afterwards is read before anyone sets it. -/
theorem liveBefore_false_iff {v : Var} {is : List Instr} :
    LiveBefore v False is ↔ ∃ before i after, is = before ++ i :: after ∧ v ∈ i.reads ∧
      ∀ j ∈ before, j.dst? ≠ some v := by
  induction is with
  | nil => simp [LiveBefore]
  | cons i rest ih =>
    rw [LiveBefore, ih]
    constructor
    · rintro (hread | ⟨hd, before, j, after, rfl, hread, hall⟩)
      · exact ⟨[], i, rest, rfl, hread, by simp⟩
      · exact ⟨i :: before, j, after, rfl, hread, List.forall_mem_cons.2 ⟨hd, hall⟩⟩
    · rintro ⟨before, j, after, heq, hread, hall⟩
      cases before with
      | nil =>
        cases heq
        exact .inl hread
      | cons k before =>
        cases heq
        obtain ⟨hd, hall⟩ := List.forall_mem_cons.1 hall
        exact .inr ⟨hd, before, j, after, rfl, hread, hall⟩

namespace Program

/-! ### From block to block -/

/-- A block sets a variable, by a phi or by an instruction. -/
def Sets (p : Program) (b : Label) (v : Var) : Prop :=
  v ∈ p.receivers b ∨ ∃ i ∈ p.body b, i.dst? = some v

/-- A block reads a variable before it sets it: some instruction reads it, and neither a phi nor
an instruction ahead of that one sets it. -/
def Exposed (p : Program) (b : Label) (v : Var) : Prop :=
  v ∉ p.receivers b ∧ ∃ before i after, p.body b = before ++ i :: after ∧ v ∈ i.reads ∧
    ∀ j ∈ before, j.dst? ≠ some v

/-- The blocks `way 0, …, way k` lead from the end of the first to a read in the last, which reads
the variable before it sets it, or has a phi that reads it when control comes from the last but
one.  No block in between sets the variable. -/
structure Way (p : Program) (v : Var) (way : Nat → Label) (k : Nat) : Prop where
  pos : 0 < k
  edge : ∀ j, j < k → p.Edge (way j) (way (j + 1))
  unset : ∀ j, 0 < j → j < k → ¬ p.Sets (way j) v
  read : p.Exposed (way k) v ∨ ∃ φ ∈ p.phis (way k), ⟨way (k - 1), v⟩ ∈ φ.args

variable {p : Program} {a b : Label} {k : Nat} {v : Var} {way : Nat → Label}

/-- What is live at the top of a block is read in it, or passes through it untouched. -/
theorem live_top_iff : v ∉ p.receivers b ∧ p.Live b 0 v ↔
    p.Exposed b v ∨ p.Live b (p.body b).length v ∧ ¬ p.Sets b v := by
  rw [live_iff_liveBefore (Nat.zero_le _), List.drop_zero, liveBefore_iff, liveBefore_false_iff,
    Exposed, Sets]
  push Not
  constructor
  · rintro ⟨hφ, hread | ⟨hall, hend⟩⟩
    · exact .inl ⟨hφ, hread⟩
    · exact .inr ⟨hend, hφ, hall⟩
  · rintro (⟨hφ, hread⟩ | ⟨hend, hφ, hall⟩)
    · exact ⟨hφ, .inl hread⟩
    · exact ⟨hφ, .inr ⟨hall, hend⟩⟩

/-- The way that starts in a block and then goes on as another one. -/
def prepend (a : Label) (way : Nat → Label) : Nat → Label
  | 0 => a
  | j + 1 => way j

namespace Way

/-- A way of one edge to a block that reads the variable. -/
theorem single (he : p.Edge a b)
    (hread : p.Exposed b v ∨ ∃ φ ∈ p.phis b, ⟨a, v⟩ ∈ φ.args) :
    p.Way v (prepend a fun _ => b) 1 where
  pos := Nat.one_pos
  edge j hj := by
    obtain rfl := Nat.lt_one_iff.1 hj
    exact he
  unset j hpos hj := absurd hpos (Nat.not_lt.2 (Nat.le_of_lt_succ hj))
  read := hread

/-- A way grows at its start by a block, if the one that was first leaves the variable alone. -/
theorem cons (h : p.Way v way k) (he : p.Edge a (way 0)) (hset : ¬ p.Sets (way 0) v) :
    p.Way v (prepend a way) (k + 1) where
  pos := Nat.succ_pos k
  edge j hj := by
    cases j with
    | zero => exact he
    | succ j => exact h.edge j (Nat.lt_of_succ_lt_succ hj)
  unset j hpos hj := by
    obtain ⟨j, rfl⟩ := Nat.exists_eq_succ_of_ne_zero (Nat.ne_of_gt hpos)
    cases j with
    | zero => exact hset
    | succ j => exact h.unset (j + 1) (Nat.succ_pos j) (Nat.lt_of_succ_lt_succ hj)
  read := by
    obtain ⟨j, rfl⟩ := Nat.exists_eq_succ_of_ne_zero (Nat.ne_of_gt h.pos)
    exact h.read

/-- A way of more than one edge goes on after its first edge. -/
theorem tail (h : p.Way v way (k + 1)) (hk : 0 < k) : p.Way v (fun j => way (j + 1)) k where
  pos := hk
  edge j hj := h.edge (j + 1) (Nat.succ_lt_succ hj)
  unset j _ hj := h.unset (j + 1) (Nat.succ_pos j) (Nat.succ_lt_succ hj)
  read := by
    obtain ⟨j, rfl⟩ := Nat.exists_eq_succ_of_ne_zero (Nat.ne_of_gt hk)
    exact h.read

/-- Where a way starts the variable is live. -/
theorem live (h : p.Way v way k) : p.Live (way 0) (p.body (way 0)).length v := by
  induction k generalizing way with
  | zero => exact absurd h.pos (Nat.lt_irrefl 0)
  | succ k ih =>
    -- the first edge leads to where the variable is read, or to a block that leaves it alone
    refine live_end_iff.2 ⟨way 1, h.edge 0 (Nat.succ_pos k), ?_⟩
    rcases Nat.eq_zero_or_pos k with rfl | hk
    · exact h.read.imp_left fun hread => live_top_iff.2 (.inl hread)
    · have hset : ¬ p.Sets (way 1) v := h.unset 1 Nat.one_pos (Nat.succ_lt_succ hk)
      exact .inl (live_top_iff.2 (.inr ⟨ih (h.tail hk), hset⟩))

end Way

/-- From where a variable is live, the rest of the block reads it, or leaves it alone and a way
starts at its end. -/
theorem Live.exists_way (h : p.Live b k v) :
    LiveBefore v False ((p.body b).drop k) ∨
      (∀ i ∈ (p.body b).drop k, i.dst? ≠ some v) ∧ ∃ way n, way 0 = b ∧ p.Way v way n := by
  induction h with
  | @read b k i v hi hread =>
    obtain ⟨hlt, rfl⟩ := List.getElem?_eq_some_iff.1 hi
    rw [List.drop_eq_getElem_cons hlt]
    exact .inl (.inl hread)
  | @pass b k i v hi hd _ ih =>
    obtain ⟨hlt, rfl⟩ := List.getElem?_eq_some_iff.1 hi
    rw [List.drop_eq_getElem_cons hlt]
    rcases ih with hread | ⟨hall, hway⟩
    · exact .inl (.inr ⟨hd, hread⟩)
    · exact .inr ⟨List.forall_mem_cons.2 ⟨hd, hall⟩, hway⟩
  | @cross b s k v hk he hφ _ ih =>
    rw [hk, List.drop_length]
    rw [List.drop_zero] at ih
    refine .inr ⟨by simp, ?_⟩
    -- either the next block reads the variable, or a way starts at its end: one edge more to go
    rcases ih with hread | ⟨hall, way, n, rfl, hway⟩
    · exact ⟨_, 1, rfl, .single he (.inl ⟨hφ, liveBefore_false_iff.1 hread⟩)⟩
    · have hset : ¬ p.Sets (way 0) v := by
        rintro (hmem | ⟨i, hi, hd⟩)
        · exact hφ hmem
        · exact hall i hi hd
      exact ⟨_, n + 1, rfl, hway.cons he hset⟩
  | @arrive b s k φ v hk he hφ ha =>
    rw [hk, List.drop_length]
    exact .inr ⟨by simp, _, 1, rfl, .single he (.inr ⟨φ, hφ, ha⟩)⟩

/-- At the end of a block exactly the variables are live to which a way leads. -/
theorem live_end_iff_way :
    p.Live b (p.body b).length v ↔ ∃ way k, way 0 = b ∧ p.Way v way k := by
  constructor
  · intro h
    have hway := h.exists_way
    rw [List.drop_length] at hway
    exact (hway.resolve_left id).2
  · rintro ⟨way, k, rfl, h⟩
    exact h.live

/-- The set at the top of a block, for all variables. -/
theorem known_iff (hp : p.Indexed) (hb : b < p.blocks.size) :
    p.liveEquations.Known p.liveness.ins v b ↔
      v < p.vars.size ∧ v ∉ p.receivers b ∧ p.Live b 0 v := by
  constructor
  · intro h
    obtain ⟨s, hs, -, hlive⟩ := liveness_settled hp
    have hv := IndexSet.lt_capacity h
    rw [hlive, hs.uniform.ins b] at hv
    exact ⟨hv, (known_iff_live hp hb hv).1 h⟩
  · rintro ⟨hv, h⟩
    exact (known_iff_live hp hb hv).2 h

/-- **The live sets are the variables with a way to a read.**  At the end of a block they are the
variables to which a way of at least one edge leads.  At its top they are the variables the block
reads before it sets them, and those that are live at its end and left alone in it. -/
theorem liveness_ways (p : Program) (hp : p.Indexed) (b : Label) (hb : b < p.blocks.size) :
    ∃ top bottom, p.liveness.ins[b]? = some top ∧ p.liveness.outs[b]? = some bottom ∧ ∀ v,
      (bottom.contains v = true ↔
        v < p.vars.size ∧ ∃ way k, way 0 = b ∧ p.Way v way k) ∧
      (top.contains v = true ↔
        v < p.vars.size ∧ (p.Exposed b v ∨ bottom.contains v = true ∧ ¬ p.Sets b v)) := by
  have hins : b < p.liveness.ins.size := by rw [size_ins_liveness hp]; exact hb
  have houts : b < p.liveness.outs.size := by rw [size_outs_liveness hp]; exact hb
  refine ⟨_, _, Array.getElem?_eq_getElem hins, Array.getElem?_eq_getElem houts, fun v => ?_⟩
  have hbottom : p.liveness.outs[b].contains v = true ↔
      v < p.vars.size ∧ p.Live b (p.body b).length v := by
    rw [← contains_liveAt_iff hp hb (Nat.le_refl _), liveAt, List.drop_length, walkBack,
      Array.getD_eq_getD_getElem?, Array.getElem?_eq_getElem houts, Option.getD_some]
  have htop : p.liveness.ins[b].contains v = true ↔
      v < p.vars.size ∧ v ∉ p.receivers b ∧ p.Live b 0 v := by
    rw [← known_iff hp hb, Equations.Known, Array.getD_eq_getD_getElem?,
      Array.getElem?_eq_getElem hins, Option.getD_some]
  rw [htop, hbottom, live_top_iff, live_end_iff_way]
  refine ⟨Iff.rfl, and_congr_right fun hv => or_congr_right (and_congr_left fun _ => ?_)⟩
  exact (and_iff_right hv).symm

/-- A loop that can be entered at both of its blocks, one of which has a phi.  It reads a variable
and names a target that do not exist. -/
def unkempt : Program where
  vars := #[{ id := 0 }, { id := 1 }, { id := 2 }, { id := 3 }]
  blocks := #[
    { label := 0, body := [.const 1 5, .branch 0 1 2] },
    { label := 1, phis := [⟨2, [⟨0, 1⟩, ⟨2, 3⟩]⟩], body := [.copy 3 2, .switch 9 [2, 7] 2] },
    { label := 2, body := [.nop, .branch 3 1 2] }]

theorem indexed_unkempt : unkempt.Indexed := by
  intro b block h
  rcases b with - | - | - | b <;> cases h <;> rfl

theorem liveness_ways_unkempt :
    unkempt.Indexed ∧ 0 < unkempt.blocks.size ∧ ∃ top bottom, unkempt.liveness.ins[0]? = some top ∧
      unkempt.liveness.outs[0]? = some bottom ∧ ∀ v,
        (bottom.contains v = true ↔
          v < unkempt.vars.size ∧ ∃ way k, way 0 = 0 ∧ unkempt.Way v way k) ∧
        (top.contains v = true ↔ v < unkempt.vars.size ∧
          (unkempt.Exposed 0 v ∨ bottom.contains v = true ∧ ¬ unkempt.Sets 0 v)) :=
  ⟨indexed_unkempt, by decide, unkempt.liveness_ways indexed_unkempt 0 (by decide)⟩

/-! ### From position to position -/

/-- Control goes on from one position to another, and what it passes leaves the variable alone.
Going over to a next block it passes the phis there. -/
inductive Passes (p : Program) (v : Var) : Label × Nat → Label × Nat → Prop
  | instr {b : Label} {k : Nat} {i : Instr} : (p.body b)[k]? = some i → i.dst? ≠ some v →
    Passes p v (b, k) (b, k + 1)
  | edge {b s : Label} : p.Edge b s → v ∉ p.receivers s →
    Passes p v (b, (p.body b).length) (s, 0)

/-- The variable is read at a position: by the instruction there, or at the end of a block by a
phi of a next one. -/
inductive ReadAt (p : Program) (v : Var) : Label × Nat → Prop
  | instr {b : Label} {k : Nat} {i : Instr} : (p.body b)[k]? = some i → v ∈ i.reads →
    ReadAt p v (b, k)
  | phi {b s : Label} {φ : Phi} : p.Edge b s → φ ∈ p.phis s → ⟨b, v⟩ ∈ φ.args →
    ReadAt p v (b, (p.body b).length)

/-- A way from the position leads to where the variable is read, and nothing on it sets the
variable. -/
def ReadAhead (p : Program) (v : Var) (start : Label × Nat) : Prop :=
  ∃ finish, Relation.ReflTransGen (p.Passes v) start finish ∧ p.ReadAt v finish

theorem live_iff_readAhead : p.Live b k v ↔ p.ReadAhead v (b, k) := by
  constructor
  · intro h
    induction h with
    | read hi hread => exact ⟨_, .refl, .instr hi hread⟩
    | pass hi hd _ ih =>
      obtain ⟨finish, hway, hread⟩ := ih
      exact ⟨finish, hway.head (.instr hi hd), hread⟩
    | cross hk he hφ _ ih =>
      obtain ⟨finish, hway, hread⟩ := ih
      exact ⟨finish, hk ▸ hway.head (.edge he hφ), hread⟩
    | arrive hk he hφ ha => exact ⟨_, .refl, hk ▸ .phi he hφ ha⟩
  · rintro ⟨finish, hway, hread⟩
    -- liveness goes back against the way, so the way is taken apart from its start
    generalize hstart : (b, k) = start at hway
    induction hway using Relation.ReflTransGen.head_induction_on generalizing b k with
    | refl =>
      subst hstart
      cases hread with
      | instr hi hread => exact .read hi hread
      | phi he hφ ha => exact .arrive rfl he hφ ha
    | head hpass _ ih =>
      subst hstart
      cases hpass with
      | instr hi hd => exact .pass hi hd (ih rfl)
      | edge he hφ => exact .cross rfl he hφ (ih rfl)

/-- The variable `u` is set where `v` is live, or along with it: by an instruction, by a phi of a
block, or on entry, where the parameters up to `n` are set. -/
def SetBeside (p : Program) (n : Nat) (u v : Var) : Prop :=
  (∃ b k i, (p.body b)[k]? = some i ∧ i.dst? = some u ∧ p.ReadAhead v (b, k + 1)) ∨
  (∃ b, u ∈ p.receivers b ∧ (v ∈ p.receivers b ∨ p.ReadAhead v (b, 0))) ∨
  u ≤ n ∧ (v ≤ n ∨ ∃ top, p.liveness.ins[0]? = some top ∧ top.contains v = true)

section Pairs

variable {n : Nat} {u : Var}

theorem setBeside_of_mem (hp : p.Indexed) (hne : v ≠ u) (hu : u < p.vars.size)
    (hv : v < p.vars.size)
    (h : (u, v) ∈ p.blockClashes p.liveness ++ p.entryClashes p.liveness n) :
    p.SetBeside n u v := by
  rcases List.mem_append.1 h with h | h
  · rcases (mem_blockClashes_iff hp hne).1 h with ⟨b, k, i, hi, hd, -, hlive⟩ |
      ⟨b, φ, hφ, rfl, -, hlive⟩ | ⟨b, j, k, φ, ψ, -, hj, hk, rfl, rfl⟩
    · exact .inl ⟨b, k, i, hi, hd, live_iff_readAhead.1 hlive⟩
    · exact .inr (.inl ⟨b, mem_receivers.2 ⟨φ, hφ, rfl⟩, .inr (live_iff_readAhead.1 hlive)⟩)
    · exact .inr (.inl ⟨b, mem_receivers.2 ⟨φ, List.mem_of_getElem? hj, rfl⟩,
        .inl (mem_receivers.2 ⟨ψ, List.mem_of_getElem? hk, rfl⟩)⟩)
  · exact .inr (.inr ((mem_entryClashes_iff hu hv).1 h))

/-- A pair of variables of which one is set beside the other is contributed, though two phis of a
block contribute their pair only the way they are ordered. -/
theorem mem_of_setBeside (hp : p.Indexed) (hne : v ≠ u) (hu : u < p.vars.size)
    (hv : v < p.vars.size) (h : p.SetBeside n u v) :
    (u, v) ∈ p.blockClashes p.liveness ++ p.entryClashes p.liveness n ∨
      (v, u) ∈ p.blockClashes p.liveness ++ p.entryClashes p.liveness n := by
  simp only [List.mem_append]
  rcases h with ⟨b, k, i, hi, hd, hread⟩ | ⟨b, hmem, hmem' | hread⟩ | hentry
  · exact .inl (.inl ((mem_blockClashes_iff hp hne).2
      (.inl ⟨b, k, i, hi, hd, hv, live_iff_readAhead.2 hread⟩)))
  · obtain ⟨φ, hφ, rfl⟩ := mem_receivers.1 hmem
    obtain ⟨ψ, hψ, rfl⟩ := mem_receivers.1 hmem'
    obtain ⟨j, hj⟩ := List.mem_iff_getElem?.1 hφ
    obtain ⟨k, hk⟩ := List.mem_iff_getElem?.1 hψ
    rcases Nat.lt_trichotomy j k with hjk | rfl | hkj
    · exact .inl (.inl ((mem_blockClashes_iff hp hne).2
        (.inr (.inr ⟨b, j, k, φ, ψ, hjk, hj, hk, rfl, rfl⟩))))
    · cases hj.symm.trans hk
      exact absurd rfl hne
    · exact .inr (.inl ((mem_blockClashes_iff hp hne.symm).2
        (.inr (.inr ⟨b, k, j, ψ, φ, hkj, hk, hj, rfl, rfl⟩))))
  · obtain ⟨φ, hφ, rfl⟩ := mem_receivers.1 hmem
    exact .inl (.inl ((mem_blockClashes_iff hp hne).2
      (.inr (.inl ⟨b, φ, hφ, rfl, hv, live_iff_readAhead.2 hread⟩))))
  · exact .inl (.inr ((mem_entryClashes_iff hu hv).2 hentry))

end Pairs

/-- **The interference graph is exact.**  It joins two different variables that exist if one of
them is set beside the other, and no others, whether blocks are worked on one after the other or
side by side.  The order in which the pairs of the blocks come in makes no difference. -/
theorem analyse_exact (p : Program) (hp : p.Indexed) (n : Nat) (parallel : Bool) (u v : Var) :
    ((p.analyse n parallel).graph.adjacent u v = true ↔
      u ≠ v ∧ u < p.vars.size ∧ v < p.vars.size ∧ (p.SetBeside n u v ∨ p.SetBeside n v u)) ∧
    ∀ pairs, pairs.Perm (p.blockClashes p.liveness) →
      ((Graph.empty p.vars.size).addEdges
        (pairs ++ p.entryClashes p.liveness n)).adjacent u v =
          (p.analyse n parallel).graph.adjacent u v := by
  have hjoin : ∀ pairs, ((Graph.empty p.vars.size).addEdges pairs).adjacent u v = true ↔
      (u ≠ v ∧ u < p.vars.size ∧ v < p.vars.size) ∧ ((u, v) ∈ pairs ∨ (v, u) ∈ pairs) := by
    intro pairs
    rw [(Graph.addEdges_spec (Graph.sound_empty p.vars.size) pairs).2.2 u v,
      Graph.adjacent_empty, Graph.size_empty]
    exact or_iff_right Bool.false_ne_true
  constructor
  · show ((Graph.empty p.vars.size).addEdges
      (p.blockClashes p.liveness ++ p.entryClashes p.liveness n)).adjacent u v = true ↔ _
    rw [hjoin]
    constructor
    · rintro ⟨⟨hne, hu, hv⟩, h | h⟩
      · exact ⟨hne, hu, hv, .inl (setBeside_of_mem hp hne.symm hu hv h)⟩
      · exact ⟨hne, hu, hv, .inr (setBeside_of_mem hp hne hv hu h)⟩
    · rintro ⟨hne, hu, hv, h | h⟩
      · exact ⟨⟨hne, hu, hv⟩, mem_of_setBeside hp hne.symm hu hv h⟩
      · exact ⟨⟨hne, hu, hv⟩, (mem_of_setBeside hp hne hv hu h).symm⟩
  · intro pairs hperm
    show _ = ((Graph.empty p.vars.size).addEdges
      (p.blockClashes p.liveness ++ p.entryClashes p.liveness n)).adjacent u v
    rw [Bool.eq_iff_iff, hjoin, hjoin]
    simp only [List.mem_append, hperm.mem_iff]

theorem analyse_exact_unkempt :
    unkempt.Indexed ∧ ((unkempt.analyse 1 true).graph.adjacent 1 3 = true ↔
      (1 : Var) ≠ 3 ∧ 1 < unkempt.vars.size ∧ 3 < unkempt.vars.size ∧
        (unkempt.SetBeside 1 1 3 ∨ unkempt.SetBeside 1 3 1)) ∧
    ∀ pairs, pairs.Perm (unkempt.blockClashes unkempt.liveness) →
      ((Graph.empty unkempt.vars.size).addEdges
        (pairs ++ unkempt.entryClashes unkempt.liveness 1)).adjacent 1 3 =
          (unkempt.analyse 1 true).graph.adjacent 1 3 :=
  ⟨indexed_unkempt, unkempt.analyse_exact indexed_unkempt 1 true 1 3⟩

end Program

end ChordalAlloc
