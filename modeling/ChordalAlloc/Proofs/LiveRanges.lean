/-
ChordalAlloc/Proofs/LiveRanges.lean

The interference graph of a strict program is chordal.

A variable is set at one point, right after its definition
(`DefSite.point`).  Points are ranked by how far their block is from the
entry, and within a block by their position.  What is live at a point was set
at a point that dominates it, and of two points of which one dominates the
other the dominating one ranks lower, unless they are the same
(`Strict.rank_le_of_live`).

So a variable that interferes with `u` and was not set later than `u` is live
where `u` is set, or is set there too (`beside_of_clash`).  Any two such
variables interfere with each other (`clash_of_beside`), and a graph with
this property is chordal (`Chordal.of_rank`).
-/
import Mathlib.Data.Prod.Lex
import Mathlib.Order.Lattice.Nat
import ChordalAlloc.Proofs.Chordality
import ChordalAlloc.Proofs.Strictness

namespace ChordalAlloc

/-- The point right after a definition: a block and a position in it. -/
def DefSite.point : DefSite → Label × Nat
  | .entry => (0, 0)
  | .phi b _ => (b, 0)
  | .instr b k => (b, k + 1)

namespace Program

variable {p : Program} {n : Nat}

/-! ### How far blocks are from the entry -/

theorem Walk.cut {past : List Label} {b c : Label} (hw : p.Walk past b) (hc : c ∈ past) :
    ∃ earlier, p.Walk earlier c ∧ earlier.length < past.length := by
  induction hw with
  | start => exact absurd hc List.not_mem_nil
  | @step past b s hw _ ih =>
    rcases List.mem_cons.1 hc with rfl | hc
    · exact ⟨past, hw, Nat.lt_succ_self _⟩
    · obtain ⟨earlier, hearlier, hlt⟩ := ih hc
      exact ⟨earlier, hearlier, Nat.lt_succ_of_lt hlt⟩

/-- The number of steps from the entry to a block. -/
noncomputable def depth (p : Program) (b : Label) : Nat :=
  sInf {k | ∃ past, p.Walk past b ∧ past.length = k}

theorem depth_le {past : List Label} {b : Label} (hw : p.Walk past b) :
    p.depth b ≤ past.length := Nat.sInf_le ⟨past, hw, rfl⟩

theorem Reachable.exists_shortest {b : Label} (h : p.Reachable b) :
    ∃ past, p.Walk past b ∧ past.length = p.depth b := by
  obtain ⟨past, hw⟩ := h
  have hne : {k | ∃ past, p.Walk past b ∧ past.length = k}.Nonempty := ⟨_, past, hw, rfl⟩
  exact Nat.sInf_mem hne

/-- How late a point is: by its block first, and then by its position. -/
noncomputable def rank (p : Program) (pt : Label × Nat) : Nat ×ₗ Nat := toLex (p.depth pt.1, pt.2)

theorem rank_lt_of_depth {b c : Label} {j k : Nat} (h : p.depth c < p.depth b) :
    p.rank (c, j) < p.rank (b, k) := Prod.Lex.toLex_lt_toLex.2 (.inl h)

theorem rank_lt_of_position {b : Label} {j k : Nat} (h : j < k) :
    p.rank (b, j) < p.rank (b, k) := Prod.Lex.toLex_lt_toLex.2 (.inr ⟨rfl, h⟩)

/-- A site that was passed on a shortest way does not rank above the point the way leads to, and
ranks as high only if it is that point. -/
theorem rank_le_of_passed {d : DefSite} {past : List Label} {b : Label} {k : Nat}
    (hw : p.Walk past b) (hshort : past.length = p.depth b) (hd : Passed past b k d) :
    p.rank d.point < p.rank (b, k) ∨ d.point = (b, k) := by
  have hnear : ∀ {c}, c ∈ past → p.depth c < p.depth b := by
    intro c hc
    obtain ⟨earlier, hearlier, hlt⟩ := hw.cut hc
    exact hshort ▸ Nat.lt_of_le_of_lt (depth_le hearlier) hlt
  have hsame : ∀ {j}, j ≤ k → p.rank (b, j) < p.rank (b, k) ∨ (b, j) = (b, k) := by
    intro j hj
    rcases Nat.lt_or_eq_of_le hj with hlt | rfl
    · exact .inl (rank_lt_of_position hlt)
    · exact .inr rfl
  cases d with
  | entry =>
    -- every other block is at least one step away
    cases hw with
    | start => exact hsame (Nat.zero_le k)
    | step hw he =>
      refine .inl (rank_lt_of_depth ?_)
      rw [← hshort, List.length_cons]
      exact Nat.lt_succ_of_le ((depth_le .start).trans (Nat.zero_le _))
  | phi c l =>
    rcases List.mem_cons.1 hd with rfl | hmem
    · exact hsame (Nat.zero_le k)
    · exact .inl (rank_lt_of_depth (hnear hmem))
  | instr c j =>
    rcases hd with hmem | ⟨rfl, hj⟩
    · exact .inl (rank_lt_of_depth (hnear hmem))
    · exact hsame hj

/-- **What is live at a point was set before**, or right there. -/
theorem Strict.rank_le_of_live (h : p.Strict n) (hp : p.WellFormed n) {d : DefSite} {b : Label}
    {k : Nat} {v : Var} (hb : p.Reachable b) (hd : p.Defines n d v) (hv : p.Live b k v) :
    p.rank d.point < p.rank (b, k) ∨ d.point = (b, k) := by
  obtain ⟨past, hw, hshort⟩ := hb.exists_shortest
  obtain ⟨d', hd', hpassed⟩ := h.passed hv hw
  obtain rfl := hp.once d d' v hd hd'
  exact rank_le_of_passed hw hshort hpassed

/-! ### Variables beside a definition -/

/-- Where all blocks can be reached, definitions can. -/
theorem Defines.reachable {d : DefSite} {v : Var} (hd : p.Defines n d v)
    (hreach : ∀ b, b < p.blocks.size → p.Reachable b) : p.Reachable d.point.1 := by
  cases d with
  | entry => exact ⟨[], .start⟩
  | phi b k =>
    obtain ⟨φ, hφ, -⟩ := hd
    exact hreach b (lt_size_of_phis (List.mem_of_getElem? hφ))
  | instr b k =>
    obtain ⟨i, hi, -⟩ := hd
    exact hreach b (lt_size_of_body hi)

/-- The variable is live at the point, or is set there. -/
def Beside (p : Program) (n : Nat) (pt : Label × Nat) (v : Var) : Prop :=
  p.Live pt.1 pt.2 v ∨ ∃ d, p.Defines n d v ∧ d.point = pt

/-- Of two variables that clash, one is beside the definition of the other. -/
theorem Clash.exists_beside {u v : Var} (h : p.Clash n u v) :
    ∃ d, p.Defines n d u ∧ p.Beside n d.point v := by
  cases h with
  | instr hi hd hl => exact ⟨.instr _ _, ⟨_, hi, hd⟩, .inl hl⟩
  | phi hφ hl =>
    obtain ⟨k, hk⟩ := List.mem_iff_getElem?.1 hφ
    exact ⟨.phi _ k, ⟨_, hk, rfl⟩, .inl hl⟩
  | phis _ hj hk => exact ⟨.phi _ _, ⟨_, hj, rfl⟩, .inr ⟨.phi _ _, ⟨_, hk, rfl⟩, rfl⟩⟩
  | params hu hv => exact ⟨.entry, hu, .inr ⟨.entry, hv, rfl⟩⟩
  | entry hu _ hl => exact ⟨.entry, hu, .inl hl⟩

/-- A variable clashes with what is live where it is set. -/
theorem Defines.clash_of_live {d : DefSite} {u v : Var} (hp : p.WellFormed n)
    (hd : p.Defines n d u) (hv : p.Live d.point.1 d.point.2 v) : p.Clash n u v := by
  cases d with
  | entry =>
    refine .entry hd ?_ hv
    rw [receivers, hp.entry_phis]
    exact List.not_mem_nil
  | phi b k =>
    obtain ⟨φ, hφ, rfl⟩ := hd
    exact .phi (List.mem_of_getElem? hφ) hv
  | instr b k =>
    obtain ⟨i, hi, hdst⟩ := hd
    exact .instr hi hdst hv

/-- Different variables that are set at one point clash. -/
theorem Defines.clash_of_point {d d' : DefSite} {u v : Var} (hp : p.WellFormed n)
    (hd : p.Defines n d u) (hd' : p.Defines n d' v) (heq : d.point = d'.point) (huv : u ≠ v) :
    p.Clash n u v ∨ p.Clash n v u := by
  have no_phi : ∀ {k v}, ¬ p.Defines n (.phi 0 k) v := by
    rintro k v ⟨φ, hφ, -⟩
    rw [hp.entry_phis] at hφ
    cases hφ
  cases d with
  | entry =>
    cases d' with
    | entry => exact .inl (.params hd hd')
    | phi c l =>
      obtain rfl : 0 = c := congrArg Prod.fst heq
      exact absurd hd' no_phi
    | instr c l => cases congrArg Prod.snd heq
  | phi b k =>
    cases d' with
    | entry =>
      obtain rfl : b = 0 := congrArg Prod.fst heq
      exact absurd hd no_phi
    | phi c l =>
      obtain rfl : b = c := congrArg Prod.fst heq
      obtain ⟨φ, hφ, rfl⟩ := hd
      obtain ⟨ψ, hψ, rfl⟩ := hd'
      rcases Nat.lt_trichotomy k l with hlt | rfl | hlt
      · exact .inl (.phis hlt hφ hψ)
      · cases hφ.symm.trans hψ
        exact absurd rfl huv
      · exact .inr (.phis hlt hψ hφ)
    | instr c l => cases congrArg Prod.snd heq
  | instr b k =>
    cases d' with
    | entry => cases congrArg Prod.snd heq
    | phi c l => cases congrArg Prod.snd heq
    | instr c l =>
      -- an instruction sets one variable
      cases heq
      obtain ⟨i, hi, hdst⟩ := hd
      obtain ⟨i', hi', hdst'⟩ := hd'
      cases hi.symm.trans hi'
      exact absurd (Option.some.inj (hdst.symm.trans hdst')) huv

/-- **Different variables beside one point clash.** -/
theorem clash_of_beside (hp : p.WellFormed n) (hentered : p.Entered n) {pt : Label × Nat}
    (hpt : p.Reachable pt.1) {u v : Var} (hu : p.Beside n pt u) (hv : p.Beside n pt v)
    (huv : u ≠ v) : p.Clash n u v ∨ p.Clash n v u := by
  rcases hu with hu | ⟨d, hd, rfl⟩ <;> rcases hv with hv | ⟨d', hd', heq⟩
  · obtain ⟨past, hw⟩ := hpt
    exact hentered.clash_of_live hw hu hv
  · subst heq
    exact .inr (hd'.clash_of_live hp hu)
  · exact .inl (hd.clash_of_live hp hv)
  · exact hd.clash_of_point hp hd' heq.symm huv

/-- **A variable that clashes with `u` and was not set later is beside the definition of `u`.** -/
theorem beside_of_clash (hp : p.WellFormed n) (hstrict : p.Strict n)
    (hreach : ∀ b, b < p.blocks.size → p.Reachable b) {d e : DefSite} {u v : Var}
    (hd : p.Defines n d u) (he : p.Defines n e v) (hle : p.rank e.point ≤ p.rank d.point)
    (h : p.Clash n u v ∨ p.Clash n v u) : p.Beside n d.point v := by
  rcases h with h | h
  · obtain ⟨d', hd', hbeside⟩ := h.exists_beside
    rwa [hp.once d d' u hd hd']
  · obtain ⟨e', he', hbeside⟩ := h.exists_beside
    obtain rfl := hp.once e e' v he he'
    -- the first variable is beside the definition of the second one, so it was not set later either
    rcases hbeside with hlive | ⟨d', hd', heq⟩
    · rcases hstrict.rank_le_of_live hp (he.reachable hreach) hd hlive with hlt | heq
      · exact absurd hle (not_le_of_gt hlt)
      · exact .inr ⟨e, he, heq.symm⟩
    · obtain rfl := hp.once d d' u hd hd'
      exact .inr ⟨e, he, heq.symm⟩

/-- What clashes is defined. -/
theorem WellFormed.exists_defines {u v : Var} (hp : p.WellFormed n)
    (h : p.Clash n u v ∨ p.Clash n v u) : ∃ d, p.Defines n d u := by
  rcases h with h | h
  · obtain ⟨d, hd, -⟩ := h.exists_beside
    exact ⟨d, hd⟩
  · obtain ⟨_, _, hlive | ⟨d, hd, -⟩⟩ := h.exists_beside
    · exact hp.defined u hlive.reads
    · exact ⟨d, hd⟩

/-- **The interference graph of a strict program is chordal**, if control may come to every
block. -/
theorem chordal_interference (p : Program) (hp : p.Indexed) (n : Nat) (hcheck : p.check n = .ok ())
    (hreach : ∀ b, b < p.blocks.size → p.Reachable b) (hstrict : p.Strict n) :
    Chordal fun u v => (p.interference p.liveness n).adjacent u v = true := by
  have hwell := wellFormed_of_check hp hcheck
  have hadj : ∀ u v, (p.interference p.liveness n).adjacent u v = true ↔
      u ≠ v ∧ (p.Clash n u v ∨ p.Clash n v u) := by
    intro u v
    rw [adjacent_interference hp hwell.entry]
    constructor
    · rintro ⟨hne, -, -, hclash⟩
      exact ⟨hne, hclash⟩
    · rintro ⟨hne, hclash⟩
      rcases hclash with h | h
      · exact ⟨hne, (hwell.clash_lt h).1, (hwell.clash_lt h).2, .inl h⟩
      · exact ⟨hne, (hwell.clash_lt h).2, (hwell.clash_lt h).1, .inr h⟩
  -- the one site of every variable that has one
  have hsite : ∀ v, ∃ d, ∀ d', p.Defines n d' v → d' = d := by
    intro v
    by_cases hv : ∃ d, p.Defines n d v
    · obtain ⟨d, hd⟩ := hv
      exact ⟨d, fun d' hd' => hwell.once d' d v hd' hd⟩
    · exact ⟨.entry, fun d' hd' => absurd ⟨d', hd'⟩ hv⟩
  choose site hsite using hsite
  have hdefines : ∀ {u v}, p.Clash n u v ∨ p.Clash n v u → p.Defines n (site u) u := by
    intro u v h
    obtain ⟨d, hd⟩ := hwell.exists_defines h
    exact hsite u d hd ▸ hd
  apply Chordal.of_rank fun v => p.rank (site v).point
  · exact (sound_interference p n).symm
  · intro u x y hx hy hxu hyu hxy
    obtain ⟨-, hux⟩ := (hadj u x).1 hx
    obtain ⟨-, huy⟩ := (hadj u y).1 hy
    have hu := hdefines hux
    have hbx := beside_of_clash hwell hstrict hreach hu (hdefines hux.symm) hxu hux
    have hby := beside_of_clash hwell hstrict hreach hu (hdefines huy.symm) hyu huy
    exact (hadj x y).2 ⟨hxy, clash_of_beside hwell (hstrict.entered hwell)
      (hu.reachable hreach) hbx hby hxy⟩

/-- Two ways lead from the entry to the last block.  Variables 0 and 1 are live on both of them,
and each way has a variable of its own. -/
def twoWays : Program where
  vars := #[{ id := 0 }, { id := 1 }, { id := 2 }, { id := 3 }, { id := 4 }, { id := 5 }]
  blocks := #[
    { label := 0, body := [.const 1 5, .branch 0 1 2] },
    { label := 1, body := [.const 2 7, .jump 3] },
    { label := 2, body := [.const 3 8, .jump 3] },
    { label := 3, phis := [⟨4, [⟨1, 2⟩, ⟨2, 3⟩]⟩],
      body := [.call (some 5) "sum" [0, 1, 4], .ret (some 5)] }]

theorem indexed_twoWays : twoWays.Indexed := by
  intro b block h
  rcases b with - | - | - | - | b <;> cases h <;> rfl

theorem reachable_twoWays (b : Label) (hb : b < twoWays.blocks.size) : twoWays.Reachable b := by
  have hone : twoWays.Walk [0] 1 := .step .start ⟨by decide, by decide⟩
  have htwo : twoWays.Walk [0] 2 := .step .start ⟨by decide, by decide⟩
  rcases b with - | - | - | - | b
  · exact ⟨_, .start⟩
  · exact ⟨_, hone⟩
  · exact ⟨_, htwo⟩
  · exact ⟨_, .step hone ⟨by decide, by decide⟩⟩
  · exact absurd hb (by simp [twoWays])

theorem dominates_entry (p : Program) (b : Label) : p.Dominates 0 b := by
  intro past hw
  induction hw with
  | start => exact List.mem_cons_self
  | step _ _ ih => exact List.mem_cons_of_mem _ ih

theorem strict_twoWays : twoWays.Strict 0 := by
  constructor
  · intro b k i v _ hi hv
    rcases b with - | - | - | - | b
    · rcases k with - | - | k <;> cases hi
      · cases hv
      · exact ⟨.entry, Nat.le_of_eq (List.mem_singleton.1 hv), trivial⟩
    · rcases k with - | - | k <;> cases hi <;> cases hv
    · rcases k with - | - | k <;> cases hi <;> cases hv
    · rcases k with - | - | k <;> cases hi
      · have hread : v = 0 ∨ v = 1 ∨ v = 4 := by simpa [Instr.reads] using hv
        rcases hread with rfl | rfl | rfl
        · exact ⟨.entry, Nat.le_refl 0, trivial⟩
        · exact ⟨.instr 0 0, ⟨_, rfl, rfl⟩, dominates_entry _ _⟩
        · exact ⟨.phi 3 0, ⟨_, rfl, rfl⟩, fun _ _ => List.mem_cons_self⟩
      · rw [List.mem_singleton.1 hv]
        exact ⟨.instr 3 0, ⟨_, rfl, rfl⟩, Nat.one_pos⟩
    · cases hi
  · intro s b φ v _ hφ ha
    rcases b with - | - | - | - | b
    · cases hφ
    · cases hφ
    · cases hφ
    · obtain rfl := List.mem_singleton.1 hφ
      rcases List.mem_cons.1 ha with ha | ha
      · cases ha
        exact ⟨.instr 1 0, ⟨_, rfl, rfl⟩, Nat.two_pos⟩
      · cases List.mem_singleton.1 ha
        exact ⟨.instr 2 0, ⟨_, rfl, rfl⟩, Nat.two_pos⟩
    · cases hφ

/-- The variable of each way clashes with those that are live on both. -/
theorem clash_twoWays {d v : Var} (hd : d = 2 ∨ d = 3) (hv : v = 0 ∨ v = 1) :
    twoWays.Clash 0 d v := by
  have hlast : twoWays.Live 3 0 v := by
    refine .read rfl ?_
    rcases hv with rfl | rfl <;> decide
  have hrec : v ∉ twoWays.receivers 3 := by
    rcases hv with rfl | rfl <;> decide
  rcases hd with rfl | rfl
  · exact .instr (b := 1) (k := 0) rfl rfl
      (.pass rfl (by simp [Instr.dst?]) (.cross rfl ⟨by decide, by decide⟩ hrec hlast))
  · exact .instr (b := 2) (k := 0) rfl rfl
      (.pass rfl (by simp [Instr.dst?]) (.cross rfl ⟨by decide, by decide⟩ hrec hlast))

/-- The variables of the two ways, in turn with those that are live on both. -/
def aroundTwoWays (i : Nat) : Var := [2, 0, 3, 1].getD i 0

theorem chordal_interference_twoWays : twoWays.check 0 = .ok () ∧
    IsCycle (fun u v => (twoWays.interference twoWays.liveness 0).adjacent u v = true) 4
      aroundTwoWays ∧
    HasChord (fun u v => (twoWays.interference twoWays.liveness 0).adjacent u v = true) 4
      aroundTwoWays := by
  have hcheck : twoWays.check 0 = .ok () := by decide +kernel
  have hcycle : IsCycle
      (fun u v => (twoWays.interference twoWays.liveness 0).adjacent u v = true) 4
      aroundTwoWays := by
    have hadj : ∀ {d v}, d = 2 ∨ d = 3 → v = 0 ∨ v = 1 →
        (twoWays.interference twoWays.liveness 0).adjacent d v = true := by
      intro d v hd hv
      have hlt : d ≠ v ∧ d < 6 ∧ v < 6 := by omega
      exact (adjacent_interference indexed_twoWays (by decide) d v).2
        ⟨hlt.1, hlt.2.1, hlt.2.2, .inl (clash_twoWays hd hv)⟩
    have hback : ∀ {d v}, d = 2 ∨ d = 3 → v = 0 ∨ v = 1 →
        (twoWays.interference twoWays.liveness 0).adjacent v d = true :=
      fun hd hv => (sound_interference twoWays 0).symm _ _ (hadj hd hv)
    refine ⟨?_, fun i hi => ?_, hback (.inl rfl) (.inr rfl)⟩
    · have hinj : ∀ i j : Fin 4, aroundTwoWays i = aroundTwoWays j → i = j := by decide
      exact fun i j hi hj heq => Fin.mk.inj (hinj ⟨i, hi⟩ ⟨j, hj⟩ heq)
    · rcases i with - | - | - | i
      · exact hadj (.inl rfl) (.inl rfl)
      · exact hback (.inr rfl) (.inl rfl)
      · exact hadj (.inr rfl) (.inr rfl)
      · omega
  exact ⟨hcheck, hcycle, chordal_interference twoWays indexed_twoWays 0 hcheck reachable_twoWays
    strict_twoWays 4 _ (Nat.le_refl 4) hcycle⟩

end Program

end ChordalAlloc
