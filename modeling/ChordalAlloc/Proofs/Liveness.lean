/-
ChordalAlloc/Proofs/Liveness.lean

The live sets are exact.

`Program.Live p b k v` says that some way from position `k` of block `b`
reads `v` before setting it.  Positions count the instructions of a block;
position 0 is after the phis, and the position after the last instruction is
where the phis of the next block read their operands.

The analysis keeps one set per block end and sums up a block by what it
reads and what it sets.  `LiveBefore` reads a run of instructions backwards
one variable at a time: it is what the summary of a block, the backward walk
through a block and `Live` have in common.  The main results are
`known_iff_live` and `contains_liveAt`: for the variables that exist,
the sets of `Program.liveness` and the sets found by walking back from them
hold exactly the variables that are live.
-/
import ChordalAlloc.Interference
import ChordalAlloc.Proofs.Equations
import ChordalAlloc.Proofs.WellFormed

namespace ChordalAlloc

/-! ### A run of instructions -/

/-- The variable is live before some instructions, given whether it is live after them. -/
def LiveBefore (v : Var) (after : Prop) : List Instr → Prop
  | [] => after
  | i :: rest => v ∈ i.reads ∨ i.dst? ≠ some v ∧ LiveBefore v after rest

section LiveBefore

variable {v : Var} {after : Prop} {is : List Instr}

/-- Being live is to be read first, or to be left alone and live afterwards. -/
theorem liveBefore_iff :
    LiveBefore v after is ↔
      LiveBefore v False is ∨ (∀ i ∈ is, i.dst? ≠ some v) ∧ after := by
  induction is with
  | nil => simp [LiveBefore]
  | cons i rest ih =>
    simp only [LiveBefore, List.forall_mem_cons]
    rw [ih]
    constructor
    · rintro (h | ⟨hd, h | ⟨hall, h⟩⟩)
      · exact .inl (.inl h)
      · exact .inl (.inr ⟨hd, h⟩)
      · exact .inr ⟨⟨hd, hall⟩, h⟩
    · rintro ((h | ⟨hd, h⟩) | ⟨⟨hd, hall⟩, h⟩)
      · exact .inl h
      · exact .inr ⟨hd, .inl h⟩
      · exact .inr ⟨hd, .inr ⟨hall, h⟩⟩

theorem liveBefore_congr {P Q : Prop} (h : P ↔ Q) : LiveBefore v P is ↔ LiveBefore v Q is := by
  rw [propext h]

theorem capacity_liveBefore (i : Instr) (s : IndexSet) :
    (i.liveBefore s).capacity = s.capacity := by
  rw [Instr.liveBefore, IndexSet.capacity_foldl_insert]
  cases i.dst? with
  | none => rfl
  | some d => exact IndexSet.capacity_erase s d

theorem contains_liveBefore {i : Instr} {s : IndexSet} (hv : v < s.capacity) :
    (i.liveBefore s).contains v = true ↔
      v ∈ i.reads ∨ i.dst? ≠ some v ∧ s.contains v = true := by
  rw [Instr.liveBefore, IndexSet.contains_foldl_insert]
  cases i.dst? with
  | none => simp [hv, or_comm]
  | some d =>
    simp only [Option.toList_some, List.foldl_cons, List.foldl_nil, IndexSet.contains_erase,
      IndexSet.capacity_erase]
    simp [hv, or_comm, and_comm, ne_comm]

theorem capacity_walkBack (is : List Instr) (s : IndexSet) :
    (walkBack is s).1.capacity = s.capacity := by
  induction is with
  | nil => rfl
  | cons i rest ih => exact (capacity_liveBefore i _).trans ih

theorem contains_walkBack {s : IndexSet} (hv : v < s.capacity) :
    (walkBack is s).1.contains v = true ↔ LiveBefore v (s.contains v = true) is := by
  induction is with
  | nil => exact Iff.rfl
  | cons i rest ih =>
    have hcap : v < (walkBack rest s).1.capacity := by rw [capacity_walkBack]; exact hv
    show (i.liveBefore (walkBack rest s).1).contains v = true ↔ _
    rw [contains_liveBefore hcap, ih]
    rfl

end LiveBefore

/-! ### The summary of a block -/

namespace Summary

variable {v : Var} {is : List Instr} {s : Summary}

theorem capacity_step (s : Summary) (i : Instr) :
    (s.step i).exposed.capacity = s.exposed.capacity ∧
      (s.step i).written.capacity = s.written.capacity :=
  ⟨IndexSet.capacity_foldl_insert _ _, IndexSet.capacity_foldl_insert _ _⟩

theorem contains_step {i : Instr} (he : v < s.exposed.capacity) (hw : v < s.written.capacity) :
    ((s.step i).exposed.contains v = true ↔
      s.exposed.contains v = true ∨ v ∈ i.reads ∧ s.written.contains v = false) ∧
    ((s.step i).written.contains v = true ↔ s.written.contains v = true ∨ i.dst? = some v) := by
  constructor
  · rw [step, IndexSet.contains_foldl_insert]
    simp [he]
  · rw [step, IndexSet.contains_foldl_insert]
    cases i.dst? with
    | none => simp
    | some d => simp [hw, @eq_comm _ v d]

/-- A summary that is carried through some instructions gains what they read before anyone
sets it, and what they set. -/
theorem contains_foldl_step (he : v < s.exposed.capacity) (hw : v < s.written.capacity) :
    ((is.foldl step s).exposed.contains v = true ↔
      s.exposed.contains v = true ∨ s.written.contains v = false ∧ LiveBefore v False is) ∧
    ((is.foldl step s).written.contains v = true ↔
      s.written.contains v = true ∨ ∃ i ∈ is, i.dst? = some v) := by
  induction is generalizing s with
  | nil => simp [LiveBefore]
  | cons i rest ih =>
    obtain ⟨ce, cw⟩ := capacity_step s i
    obtain ⟨hexp, hwri⟩ := contains_step (i := i) he hw
    obtain ⟨ihe, ihw⟩ := ih (s := s.step i) (by rw [ce]; exact he) (by rw [cw]; exact hw)
    have hnot : (s.step i).written.contains v = false ↔
        s.written.contains v = false ∧ i.dst? ≠ some v := by
      rw [← Bool.not_eq_true, hwri, not_or, Bool.not_eq_true]
    rw [List.foldl_cons]
    refine ⟨?_, ?_⟩
    · rw [ihe, hexp, hnot, LiveBefore]
      constructor
      · rintro ((h | ⟨hr, hs⟩) | ⟨⟨hs, hd⟩, h⟩)
        · exact .inl h
        · exact .inr ⟨hs, .inl hr⟩
        · exact .inr ⟨hs, .inr ⟨hd, h⟩⟩
      · rintro (h | ⟨hs, hr | ⟨hd, h⟩⟩)
        · exact .inl (.inl h)
        · exact .inl (.inr ⟨hr, hs⟩)
        · exact .inr ⟨⟨hs, hd⟩, h⟩
    · rw [ihw, hwri, List.exists_mem_cons_iff, or_assoc]

end Summary

theorem Block.contains_summary (b : Block) {n : Nat} {v : Var} (hv : v < n) :
    ((b.summary n).exposed.contains v = true ↔
      v ∉ b.phis.map (·.dst) ∧ LiveBefore v False b.body) ∧
    ((b.summary n).written.contains v = true ↔
      v ∈ b.phis.map (·.dst) ∨ ∃ i ∈ b.body, i.dst? = some v) := by
  have key := @Summary.contains_foldl_step v b.body
    { exposed := IndexSet.empty n, written := IndexSet.ofList n (b.phis.map (·.dst)) }
    (by simpa using hv) (by simpa using hv)
  simpa [Block.summary, hv] using key

/-! ### Live variables of a program -/

namespace Program

/-- From a position of a block, the variable may be read before it is set. -/
inductive Live (p : Program) : Label → Nat → Var → Prop
  /-- The next instruction reads it. -/
  | read {b : Label} {k : Nat} {i : Instr} {v : Var} :
    (p.body b)[k]? = some i → v ∈ i.reads → Live p b k v
  /-- The next instruction leaves it alone. -/
  | pass {b : Label} {k : Nat} {i : Instr} {v : Var} :
    (p.body b)[k]? = some i → i.dst? ≠ some v → Live p b (k + 1) v → Live p b k v
  /-- The phis of the next block leave it alone. -/
  | cross {b s : Label} {k : Nat} {v : Var} : k = (p.body b).length →
    p.Edge b s → v ∉ p.receivers s → Live p s 0 v → Live p b k v
  /-- A phi of the next block reads it. -/
  | arrive {b s : Label} {k : Nat} {φ : Phi} {v : Var} : k = (p.body b).length →
    p.Edge b s → φ ∈ p.phis s → ⟨b, v⟩ ∈ φ.args → Live p b k v

variable {p : Program} {b : Label} {k : Nat} {v : Var}

/-- At an instruction, its operands are live, and what is live after it and not set by it. -/
theorem live_iff_of_instr {i : Instr} (hi : (p.body b)[k]? = some i) :
    p.Live b k v ↔ v ∈ i.reads ∨ i.dst? ≠ some v ∧ p.Live b (k + 1) v := by
  have hlt : k < (p.body b).length := (List.getElem?_eq_some_iff.1 hi).1
  constructor
  · rintro (⟨hj, hv⟩ | ⟨hj, hd, h⟩ | ⟨rfl, -, -, -⟩ | ⟨rfl, -, -, -⟩)
    · cases hi.symm.trans hj
      exact .inl hv
    · cases hi.symm.trans hj
      exact .inr ⟨hd, h⟩
    · exact absurd hlt (Nat.lt_irrefl _)
    · exact absurd hlt (Nat.lt_irrefl _)
  · rintro (hv | ⟨hd, h⟩)
    · exact .read hi hv
    · exact .pass hi hd h

/-- At the end of a block, what the phis of a next block read is live, and what is live after
them and not set by them. -/
theorem live_end_iff :
    p.Live b (p.body b).length v ↔ ∃ s, p.Edge b s ∧
      (v ∉ p.receivers s ∧ p.Live s 0 v ∨ ∃ φ ∈ p.phis s, ⟨b, v⟩ ∈ φ.args) := by
  have hnone : (p.body b)[(p.body b).length]? = none := List.getElem?_eq_none (Nat.le_refl _)
  constructor
  · intro h
    cases h with
    | read hi _ => rw [hnone] at hi; cases hi
    | pass hi _ _ => rw [hnone] at hi; cases hi
    | cross _ he hv h => exact ⟨_, he, .inl ⟨hv, h⟩⟩
    | arrive _ he hφ ha => exact ⟨_, he, .inr ⟨_, hφ, ha⟩⟩
  · rintro ⟨s, he, ⟨hv, h⟩ | ⟨φ, hφ, ha⟩⟩
    · exact .cross rfl he hv h
    · exact .arrive rfl he hφ ha

theorem Live.le_length (h : p.Live b k v) : k ≤ (p.body b).length := by
  rcases h with ⟨hi, -⟩ | ⟨hi, -, -⟩ | ⟨rfl, -, -, -⟩ | ⟨rfl, -, -, -⟩
  · exact Nat.le_of_lt (List.getElem?_eq_some_iff.1 hi).1
  · exact Nat.le_of_lt (List.getElem?_eq_some_iff.1 hi).1
  · exact Nat.le_refl _
  · exact Nat.le_refl _

/-- Within a block, being live is decided by the rest of the block and its end. -/
theorem live_iff_liveBefore (hk : k ≤ (p.body b).length) :
    p.Live b k v ↔
      LiveBefore v (p.Live b (p.body b).length v) ((p.body b).drop k) := by
  induction hk using Nat.decreasingInduction with
  | self => rw [List.drop_length]; rfl
  | of_succ k hlt ih =>
    rw [List.drop_eq_getElem_cons hlt,
      live_iff_of_instr (List.getElem?_eq_getElem hlt), ih]
    rfl

theorem Live.reads (h : p.Live b k v) : p.Reads v := by
  induction h with
  | read hi hv => exact .inl ⟨_, _, List.mem_of_getElem? hi, hv⟩
  | pass _ _ _ ih => exact ih
  | cross _ _ _ _ ih => exact ih
  | arrive _ _ hφ ha => exact .inr ⟨_, _, hφ, List.mem_map.2 ⟨_, ha, rfl⟩⟩

/-! ### The equations of liveness -/

theorem consistent_flow (hp : p.Indexed) : p.flow.Consistent where
  mem_pred _ _ h := (mem_pred_flow hp).2 (mem_succ_flow.1 h)
  succ_lt _ _ h := by rw [size_flow]; exact (mem_succ_flow.1 h).2

section Equations

variable {block : Block}

theorem mem_phiReads {s : Label} (h : p.blocks[s]? = some block) (hv : v < p.vars.size) :
    (b, v) ∈ p.liveEquations.arrivals.getD s [] ↔ ∃ φ ∈ p.phis s, ⟨b, v⟩ ∈ φ.args := by
  have key : p.liveEquations.arrivals.getD s [] = block.phiReads p.vars.size := by
    simp [liveEquations, Array.getD_eq_getD_getElem?, h]
  rw [key, Block.phiReads, phis_of h]
  simp only [List.mem_flatMap, List.mem_map, List.mem_filter, decide_eq_true_eq,
    Prod.mk.injEq]
  constructor
  · rintro ⟨φ, hφ, ⟨src, val⟩, ⟨ha, -⟩, rfl, rfl⟩
    exact ⟨φ, hφ, ha⟩
  · rintro ⟨φ, hφ, ha⟩
    exact ⟨φ, hφ, ⟨b, v⟩, ⟨ha, hv⟩, rfl, rfl⟩

theorem summaries_getD (h : p.blocks[b]? = some block) (hlabel : block.label = b) (d : Summary) :
    p.summaries.getD block.label d = block.summary p.vars.size := by
  rw [hlabel]
  simp [summaries, Array.getD_eq_getD_getElem?, h]

theorem gen_liveEquations (h : p.blocks[b]? = some block) (hlabel : block.label = b)
    (d : IndexSet) :
    p.liveEquations.gen.getD b d = (block.summary p.vars.size).exposed := by
  rw [Array.getD_eq_getD_getElem?]
  simp only [liveEquations, Array.getElem?_map, h, Option.map_some, Option.getD_some,
    summaries_getD h hlabel]

theorem kill_liveEquations (h : p.blocks[b]? = some block) (hlabel : block.label = b)
    (d : IndexSet) :
    p.liveEquations.kill.getD b d = (block.summary p.vars.size).written := by
  rw [Array.getD_eq_getD_getElem?]
  simp only [liveEquations, Array.getElem?_map, h, Option.map_some, Option.getD_some,
    summaries_getD h hlabel]

/-- The equation of the end of a block, for a variable that exists. -/
theorem outFact_liveEquations {P : Label → Prop} (hv : v < p.vars.size) :
    p.liveEquations.outFact p.flow P v b ↔
      ∃ s, p.Edge b s ∧ (P s ∨ ∃ φ ∈ p.phis s, ⟨b, v⟩ ∈ φ.args) := by
  unfold Equations.outFact
  simp only [liveEquations, IndexSet.contains_empty, Bool.false_eq_true, and_false, false_or]
  constructor
  · rintro ⟨s, hs, h⟩
    have he := mem_succ_flow.1 hs
    obtain ⟨block, hblock⟩ := exists_block he.2
    exact ⟨s, he, h.imp_right (mem_phiReads hblock hv).1⟩
  · rintro ⟨s, he, h⟩
    obtain ⟨block, hblock⟩ := exists_block he.2
    exact ⟨s, mem_succ_flow.2 he, h.imp_right (mem_phiReads hblock hv).2⟩

/-- The equation of the top of a block: its phis set what they set, and the instructions are
read backwards from the end. -/
theorem inFact_liveEquations {P : Label → Prop} (hp : p.Indexed) (hb : b < p.blocks.size)
    (hv : v < p.vars.size) :
    p.liveEquations.inFact p.flow P v b ↔ v ∉ p.receivers b ∧
      LiveBefore v (p.liveEquations.outFact p.flow P v b) (p.body b) := by
  obtain ⟨block, hblock⟩ := exists_block hb
  obtain ⟨hexp, hwri⟩ := block.contains_summary hv
  rw [Equations.inFact, gen_liveEquations hblock (hp b block hblock),
    kill_liveEquations hblock (hp b block hblock), hexp,
    ← Bool.not_eq_true, hwri, receivers, phis_of hblock, body_of hblock,
    @liveBefore_iff v (p.liveEquations.outFact p.flow P v b)]
  push Not
  constructor
  · rintro (⟨hφ, h⟩ | ⟨h, hφ, hall⟩)
    · exact ⟨hφ, .inl h⟩
    · exact ⟨hφ, .inr ⟨hall, h⟩⟩
  · rintro ⟨hφ, h | ⟨hall, h⟩⟩
    · exact .inl ⟨hφ, h⟩
    · exact .inr ⟨h, hφ, hall⟩

end Equations

/-! ### The sets that are found -/

/-- The variables found live at a position of a block. -/
def liveAt (p : Program) (b : Label) (k : Nat) : IndexSet :=
  (walkBack ((p.body b).drop k)
    (p.liveness.outs.getD b (IndexSet.empty p.vars.size))).1

theorem liveness_settled (hp : p.Indexed) :
    ∃ s, Equations.Inv p.liveEquations p.flow s ∧ s.queue = [] ∧ p.liveness = s.known :=
  (Equations.solve_settled (consistent_flow hp) rfl).imp fun _ hs => hs.2

theorem size_ins_liveness (hp : p.Indexed) : p.liveness.ins.size = p.blocks.size := by
  obtain ⟨s, hs, -, hlive⟩ := liveness_settled hp
  rw [hlive, hs.ins_size, size_flow]

theorem size_outs_liveness (hp : p.Indexed) : p.liveness.outs.size = p.blocks.size := by
  obtain ⟨s, hs, -, hlive⟩ := liveness_settled hp
  rw [hlive, hs.outs_size, size_flow]

/-- The sets that are found solve the equations, and their ends have room for every variable. -/
theorem liveness_solves (hp : p.Indexed) (hb : b < p.blocks.size) :
    (p.liveness.outs.getD b p.liveEquations.initial).capacity = p.vars.size ∧
    (v < p.vars.size →
      ((p.liveness.outs.getD b p.liveEquations.initial).contains v = true ↔
        p.liveEquations.outFact p.flow (p.liveEquations.Known p.liveness.ins v) v b) ∧
      (p.liveEquations.Known p.liveness.ins v b ↔
        p.liveEquations.inFact p.flow (p.liveEquations.Known p.liveness.ins v) v b)) := by
  obtain ⟨s, hs, hq, hlive⟩ := liveness_settled hp
  obtain ⟨hins, houts⟩ := hs.settled b (by rw [size_flow]; exact hb)
    (by rw [hq]; exact List.not_mem_nil)
  rw [hlive, houts]
  refine ⟨Equations.capacity_gather hs.uniform b, fun hv => ⟨?_, ?_⟩⟩
  · exact Equations.contains_gather hs.uniform hv
  · rw [← Equations.contains_top hs.uniform hv, ← hins]
    rfl

/-- **The sets at the tops of blocks are exact.** -/
theorem known_iff_live (hp : p.Indexed) (hb : b < p.blocks.size) (hv : v < p.vars.size) :
    p.liveEquations.Known p.liveness.ins v b ↔
      v ∉ p.receivers b ∧ p.Live b 0 v := by
  constructor
  · -- what is found holds in every solution, and being live is one
    obtain ⟨s, hs, -, hlive⟩ := liveness_settled hp
    have below := hs.below v hv
      (fun b => v ∉ p.receivers b ∧ p.Live b 0 v) ?_ b (by rw [size_flow]; exact hb)
    · simp only [Equations.Moved, liveEquations, IndexSet.contains_empty, iff_true] at below
      rw [hlive]
      exact below
    · intro b hb
      rw [size_flow] at hb
      rw [inFact_liveEquations hp hb hv, live_iff_liveBefore (Nat.zero_le _), List.drop_zero,
        liveBefore_congr (live_end_iff.trans (outFact_liveEquations hv).symm)]
  · -- the other way round, follow the way that reads the variable
    have follow : ∀ {b k w}, p.Live b k w → w = v → b < p.blocks.size →
        LiveBefore v
          (p.liveEquations.outFact p.flow (p.liveEquations.Known p.liveness.ins v) v b)
          ((p.body b).drop k) := by
      intro b k w h
      induction h with
      | @read b k i w hi hw =>
        rintro rfl -
        obtain ⟨hlt, rfl⟩ := List.getElem?_eq_some_iff.1 hi
        rw [List.drop_eq_getElem_cons hlt]
        exact .inl hw
      | @pass b k i w hi hd _ ih =>
        rintro rfl hb
        obtain ⟨hlt, rfl⟩ := List.getElem?_eq_some_iff.1 hi
        rw [List.drop_eq_getElem_cons hlt]
        exact .inr ⟨hd, ih rfl hb⟩
      | @cross b s k w hk he hw _ ih =>
        rintro rfl -
        rw [hk, List.drop_length]
        refine (outFact_liveEquations hv).2 ⟨s, he, .inl ?_⟩
        rw [((liveness_solves hp he.2).2 hv).2, inFact_liveEquations hp he.2 hv]
        exact ⟨hw, ih rfl he.2⟩
      | @arrive b s k φ w hk he hφ ha =>
        rintro rfl -
        rw [hk, List.drop_length]
        exact (outFact_liveEquations hv).2 ⟨s, he, .inr ⟨φ, hφ, ha⟩⟩
    rintro ⟨hφ, h⟩
    rw [((liveness_solves hp hb).2 hv).2, inFact_liveEquations hp hb hv]
    exact ⟨hφ, follow h rfl hb⟩

theorem capacity_liveAt (hp : p.Indexed) (hb : b < p.blocks.size) :
    (p.liveAt b k).capacity = p.vars.size :=
  (capacity_walkBack _ _).trans (liveness_solves (v := 0) hp hb).1

/-- **The sets within blocks are exact.** -/
theorem contains_liveAt (hp : p.Indexed) (hb : b < p.blocks.size)
    (hk : k ≤ (p.body b).length) (hv : v < p.vars.size) :
    (p.liveAt b k).contains v = true ↔ p.Live b k v := by
  obtain ⟨hcap, hsolves⟩ := liveness_solves (v := v) hp hb
  have hout : (p.liveness.outs.getD b p.liveEquations.initial).contains v = true ↔
      p.Live b (p.body b).length v := by
    rw [(hsolves hv).1, outFact_liveEquations hv, live_end_iff]
    refine exists_congr fun s => and_congr_right fun he => or_congr_left ?_
    exact known_iff_live hp he.2 hv
  rw [live_iff_liveBefore hk, ← liveBefore_congr hout]
  exact contains_walkBack (hv.trans_eq hcap.symm)

end Program

end ChordalAlloc
