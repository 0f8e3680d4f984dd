/-
ChordalAlloc/Proofs/Interference.lean

The interference graph joins exactly the variables that clash.

Two variables clash when one is set where the other is live, as `Clash` says
one kind of setting at a time: by an instruction, by a phi, or on entry.
`adjacent_interference` states that among the variables that exist the graph
of a program is this relation made symmetric, with no other edges; the live
sets it is built from are exact, so nothing is lost and nothing is added.
-/
import ChordalAlloc.Proofs.Adjacency
import ChordalAlloc.Proofs.Liveness

namespace ChordalAlloc

/-! ### The pairs of one block -/

section Pairs

variable {d v : Var} {is : List Instr} {s : IndexSet}

theorem mem_clashes {i : Instr} :
    (d, v) ∈ i.clashes s ↔ i.dst? = some d ∧ v ≠ d ∧ s.contains v = true := by
  simp only [Instr.clashes, List.mem_flatMap, Option.mem_toList, List.mem_map, List.mem_filter,
    IndexSet.mem_toList, bne_iff_ne, Prod.mk.injEq]
  constructor
  · rintro ⟨x, hx, y, ⟨hy, hne⟩, rfl, rfl⟩
    exact ⟨hx, hne, hy⟩
  · rintro ⟨hd, hne, hv⟩
    exact ⟨d, hd, v, ⟨hv, hne⟩, rfl, rfl⟩

theorem mem_walkBack :
    (d, v) ∈ (walkBack is s).2 ↔ ∃ k i, is[k]? = some i ∧ i.dst? = some d ∧ v ≠ d ∧
      (walkBack (is.drop (k + 1)) s).1.contains v = true := by
  induction is with
  | nil => simp [walkBack]
  | cons i rest ih =>
    show (d, v) ∈ i.clashes (walkBack rest s).1 ++ (walkBack rest s).2 ↔ _
    rw [List.mem_append, mem_clashes, ih]
    constructor
    · rintro (h | ⟨k, j, hj, h⟩)
      · exact ⟨0, i, rfl, h⟩
      · exact ⟨k + 1, j, hj, h⟩
    · rintro ⟨k, j, hj, h⟩
      cases k with
      | zero =>
        cases hj
        exact .inl h
      | succ k => exact .inr ⟨k, j, hj, h⟩

theorem mem_phiClashes {ds : List Var} :
    (d, v) ∈ phiClashes s ds ↔ d ∈ ds ∧ v ≠ d ∧ s.contains v = true ∨
      ∃ j k : Nat, j < k ∧ ds[j]? = some d ∧ ds[k]? = some v := by
  induction ds with
  | nil => simp [phiClashes]
  | cons e rest ih =>
    simp only [phiClashes, List.mem_append, List.mem_map, List.mem_filter, IndexSet.mem_toList,
      bne_iff_ne, Prod.mk.injEq, ih, List.mem_cons]
    constructor
    · rintro ((⟨x, ⟨hx, hne⟩, rfl, rfl⟩ | ⟨x, hx, rfl, rfl⟩) | ⟨hd, h⟩ | ⟨j, k, hjk, hj, hk⟩)
      · exact .inl ⟨.inl rfl, hne, hx⟩
      · obtain ⟨k, hk⟩ := List.mem_iff_getElem?.1 hx
        exact .inr ⟨0, k + 1, Nat.succ_pos k, rfl, hk⟩
      · exact .inl ⟨.inr hd, h⟩
      · exact .inr ⟨j + 1, k + 1, Nat.succ_lt_succ hjk, hj, hk⟩
    · rintro (⟨rfl | hd, hne, h⟩ | ⟨j, k, hjk, hj, hk⟩)
      · exact .inl (.inl ⟨v, ⟨h, hne⟩, rfl, rfl⟩)
      · exact .inr (.inl ⟨hd, hne, h⟩)
      · obtain ⟨k, rfl⟩ := Nat.exists_eq_succ_of_ne_zero (Nat.ne_zero_of_lt hjk)
        cases j with
        | zero =>
          cases hj
          exact .inl (.inr ⟨v, List.mem_of_getElem? hk, rfl, rfl⟩)
        | succ j => exact .inr (.inr ⟨j, k, Nat.lt_of_succ_lt_succ hjk, hj, hk⟩)

end Pairs

/-! ### The pairs of a program -/

namespace Program

/-- The first variable is set where the second one is live, or along with it. -/
inductive Clash (p : Program) (n : Nat) : Var → Var → Prop
  /-- An instruction sets one, and the other is live right after it. -/
  | instr {b : Label} {k : Nat} {i : Instr} {d v : Var} : (p.body b)[k]? = some i →
    i.dst? = some d → p.Live b (k + 1) v → Clash p n d v
  /-- A phi sets one, and the other is live right after the phis. -/
  | phi {b : Label} {φ : Phi} {v : Var} : φ ∈ p.phis b → p.Live b 0 v → Clash p n φ.dst v
  /-- Two phis of a block set them. -/
  | phis {b : Label} {j k : Nat} {φ ψ : Phi} : j < k → (p.phis b)[j]? = some φ →
    (p.phis b)[k]? = some ψ → Clash p n φ.dst ψ.dst
  /-- Both are parameters. -/
  | params {a v : Var} : a ≤ n → v ≤ n → Clash p n a v
  /-- One is a parameter, and the other is live at the top of the entry. -/
  | entry {a v : Var} : a ≤ n → v ∉ p.receivers 0 → p.Live 0 0 v → Clash p n a v

variable {p : Program} {n : Nat} {d v : Var}

theorem contains_liveAt_iff (hp : p.Indexed) {b : Label} (hb : b < p.blocks.size) {k : Nat}
    (hk : k ≤ (p.body b).length) :
    (p.liveAt b k).contains v = true ↔ v < p.vars.size ∧ p.Live b k v := by
  constructor
  · intro h
    have hv := IndexSet.lt_capacity h
    rw [capacity_liveAt hp hb] at hv
    exact ⟨hv, (contains_liveAt hp hb hk hv).1 h⟩
  · rintro ⟨hv, h⟩
    exact (contains_liveAt hp hb hk hv).2 h

/-- A block looks up the live set at its own end. -/
theorem clashes_of_block (hp : p.Indexed) {b : Label} {block : Block}
    (hb : p.blocks[b]? = some block) :
    (p.liveness.outs[block.label]?.map block.clashes).getD [] =
      (walkBack (p.body b) (p.liveness.outs.getD b (IndexSet.empty p.vars.size))).2 ++
        phiClashes (p.liveAt b 0) (p.receivers b) := by
  have hlt : b < p.liveness.outs.size := by
    rw [size_outs_liveness hp]
    exact (Array.getElem?_eq_some_iff.1 hb).1
  rw [hp b block hb, body_of hb, receivers, phis_of hb, liveAt, body_of hb, List.drop_zero,
    Array.getD_eq_getD_getElem?, Array.getElem?_eq_getElem hlt]
  rfl

theorem mem_blockClashes (hp : p.Indexed) :
    (d, v) ∈ p.blockClashes p.liveness ↔ ∃ b, b < p.blocks.size ∧
      ((d, v) ∈ (walkBack (p.body b)
          (p.liveness.outs.getD b (IndexSet.empty p.vars.size))).2 ∨
        (d, v) ∈ phiClashes (p.liveAt b 0) (p.receivers b)) := by
  simp only [blockClashes, List.mem_flatMap]
  constructor
  · rintro ⟨block, hblock, h⟩
    obtain ⟨b, hb⟩ := List.mem_iff_getElem?.1 hblock
    rw [Array.getElem?_toList] at hb
    rw [clashes_of_block hp hb, List.mem_append] at h
    exact ⟨b, (Array.getElem?_eq_some_iff.1 hb).1, h⟩
  · rintro ⟨b, hlt, h⟩
    obtain ⟨block, hb⟩ := exists_block hlt
    refine ⟨block, mem_blocks hb, ?_⟩
    rw [clashes_of_block hp hb, List.mem_append]
    exact h

theorem mem_blockClashes_iff (hp : p.Indexed) (hne : v ≠ d) :
    (d, v) ∈ p.blockClashes p.liveness ↔
      (∃ b k i, (p.body b)[k]? = some i ∧ i.dst? = some d ∧ v < p.vars.size ∧
        p.Live b (k + 1) v) ∨
      (∃ b φ, φ ∈ p.phis b ∧ φ.dst = d ∧ v < p.vars.size ∧ p.Live b 0 v) ∨
      ∃ (b : Label) (j k : Nat) (φ ψ : Phi), j < k ∧ (p.phis b)[j]? = some φ ∧
        (p.phis b)[k]? = some ψ ∧ φ.dst = d ∧ ψ.dst = v := by
  rw [mem_blockClashes hp]
  simp only [mem_walkBack, mem_phiClashes]
  constructor
  · rintro ⟨b, hb, ⟨k, i, hi, hd, -, h⟩ | ⟨hφ, -, h⟩ | ⟨j, k, hjk, hj, hk⟩⟩
    · obtain ⟨hlt, -⟩ := List.getElem?_eq_some_iff.1 hi
      exact .inl ⟨b, k, i, hi, hd, (contains_liveAt_iff hp hb hlt).1 h⟩
    · obtain ⟨φ, hmem, rfl⟩ := mem_receivers.1 hφ
      exact .inr (.inl ⟨b, φ, hmem, rfl, (contains_liveAt_iff hp hb (Nat.zero_le _)).1 h⟩)
    · rw [receivers, List.getElem?_map, Option.map_eq_some_iff] at hj hk
      obtain ⟨φ, hj, hφ⟩ := hj
      obtain ⟨ψ, hk, hψ⟩ := hk
      exact .inr (.inr ⟨b, j, k, φ, ψ, hjk, hj, hk, hφ, hψ⟩)
  · rintro (⟨b, k, i, hi, hd, h⟩ | ⟨b, φ, hφ, rfl, h⟩ | ⟨b, j, k, φ, ψ, hjk, hj, hk, rfl, rfl⟩)
    · have hb := lt_size_of_body hi
      obtain ⟨hlt, -⟩ := List.getElem?_eq_some_iff.1 hi
      exact ⟨b, hb, .inl ⟨k, i, hi, hd, hne, (contains_liveAt_iff hp hb hlt).2 h⟩⟩
    · have hb := lt_size_of_phis hφ
      refine ⟨b, hb, .inr (.inl ⟨mem_receivers.2 ⟨φ, hφ, rfl⟩, hne, ?_⟩)⟩
      exact (contains_liveAt_iff hp hb (Nat.zero_le _)).2 h
    · have hb := lt_size_of_phis (List.mem_of_getElem? hj)
      refine ⟨b, hb, .inr (.inr ⟨j, k, hjk, ?_, ?_⟩)⟩
      · rw [receivers, List.getElem?_map, hj]; rfl
      · rw [receivers, List.getElem?_map, hk]; rfl

/-- On entry every parameter is set along with the others, while what is live there is live. -/
theorem mem_entryClashes_iff {live : Solution} (hd : d < p.vars.size) (hv : v < p.vars.size) :
    (d, v) ∈ p.entryClashes live n ↔
      d ≤ n ∧ (v ≤ n ∨ ∃ top, live.ins[0]? = some top ∧ top.contains v = true) := by
  have params : ∀ {x}, x < p.vars.size → (x ∈ p.paramVars n ↔ x ≤ n) := by
    intro x hx
    rw [paramVars, List.mem_range]
    omega
  have top : v ∈ (live.ins[0]?.map (·.toList)).getD [] ↔
      ∃ top, live.ins[0]? = some top ∧ top.contains v = true := by
    rcases live.ins[0]? with - | top
    · simp
    · simp
  simp only [entryClashes, List.mem_flatMap, List.mem_map, Prod.mk.injEq]
  constructor
  · rintro ⟨a, ha, x, hx, rfl, rfl⟩
    refine ⟨(params hd).1 ha, ?_⟩
    rcases List.mem_append.1 hx with hx | hx
    · exact .inl ((params hv).1 hx)
    · exact .inr (top.1 hx)
  · rintro ⟨ha, h⟩
    refine ⟨d, (params hd).2 ha, v, List.mem_append.2 ?_, rfl, rfl⟩
    exact h.imp (params hv).2 top.2

theorem mem_entryClashes (hp : p.Indexed) (h0 : 0 < p.blocks.size) (hd : d < p.vars.size)
    (hv : v < p.vars.size) :
    (d, v) ∈ p.entryClashes p.liveness n ↔
      d ≤ n ∧ (v ≤ n ∨ v ∉ p.receivers 0 ∧ p.Live 0 0 v) := by
  have hins : 0 < p.liveness.ins.size := by rw [size_ins_liveness hp]; exact h0
  rw [mem_entryClashes_iff hd hv, ← known_iff_live hp h0 hv, Equations.Known,
    Array.getD_eq_getD_getElem?, Array.getElem?_eq_getElem hins]
  simp

theorem mem_pairs_iff_clash (hp : p.Indexed) (h0 : 0 < p.blocks.size) (hd : d < p.vars.size)
    (hv : v < p.vars.size) (hne : v ≠ d) :
    (d, v) ∈ p.blockClashes p.liveness ++ p.entryClashes p.liveness n ↔ p.Clash n d v := by
  rw [List.mem_append, mem_blockClashes_iff hp hne, mem_entryClashes hp h0 hd hv]
  constructor
  · rintro ((⟨b, k, i, hi, hid, -, h⟩ | ⟨b, φ, hφ, rfl, -, h⟩ |
      ⟨b, j, k, φ, ψ, hjk, hj, hk, rfl, rfl⟩) | ⟨hdn, hvn | ⟨hφ, h⟩⟩)
    · exact .instr hi hid h
    · exact .phi hφ h
    · exact .phis hjk hj hk
    · exact .params hdn hvn
    · exact .entry hdn hφ h
  · intro h
    cases h with
    | instr hi hid h => exact .inl (.inl ⟨_, _, _, hi, hid, hv, h⟩)
    | phi hφ h => exact .inl (.inr (.inl ⟨_, _, hφ, rfl, hv, h⟩))
    | phis hjk hj hk => exact .inl (.inr (.inr ⟨_, _, _, _, _, hjk, hj, hk, rfl, rfl⟩))
    | params hdn hvn => exact .inr ⟨hdn, .inl hvn⟩
    | entry hdn hφ h => exact .inr ⟨hdn, .inr ⟨hφ, h⟩⟩

/-- **The interference graph is the relation of clashing.** -/
theorem adjacent_interference (hp : p.Indexed) (h0 : 0 < p.blocks.size) (u v : Var) :
    (p.interference p.liveness n).adjacent u v = true ↔
      u ≠ v ∧ u < p.vars.size ∧ v < p.vars.size ∧ (p.Clash n u v ∨ p.Clash n v u) := by
  obtain ⟨-, -, hadj⟩ := Graph.addEdges_spec (Graph.sound_empty p.vars.size)
    (p.blockClashes p.liveness ++ p.entryClashes p.liveness n)
  rw [interference, hadj, Graph.adjacent_empty, Graph.size_empty]
  constructor
  · rintro (h | ⟨⟨hne, hu, hv⟩, h⟩)
    · cases h
    · refine ⟨hne, hu, hv, ?_⟩
      rwa [mem_pairs_iff_clash hp h0 hu hv hne.symm, mem_pairs_iff_clash hp h0 hv hu hne] at h
  · rintro ⟨hne, hu, hv, h⟩
    refine .inr ⟨⟨hne, hu, hv⟩, ?_⟩
    rwa [mem_pairs_iff_clash hp h0 hu hv hne.symm, mem_pairs_iff_clash hp h0 hv hu hne]

theorem sound_interference (p : Program) (n : Nat) : (p.interference p.liveness n).Sound :=
  (Graph.addEdges_spec (Graph.sound_empty _) _).1

theorem size_interference (p : Program) (n : Nat) :
    (p.interference p.liveness n).size = p.vars.size :=
  (Graph.addEdges_spec (Graph.sound_empty _) _).2.1.trans (Graph.size_empty _)

theorem WellFormed.clash_lt {p : Program} {n : Nat} {u v : Var} (h : p.WellFormed n)
    (hc : p.Clash n u v) : u < p.vars.size ∧ v < p.vars.size := by
  have live : ∀ {b k v}, p.Live b k v → v < p.vars.size := fun hl => h.reads_lt hl.reads
  have param : ∀ {v}, v ≤ n → v < p.vars.size := fun hv => h.defines_lt .entry _ hv
  cases hc with
  | instr hi hd hl => exact ⟨h.defines_lt (.instr _ _) _ ⟨_, hi, hd⟩, live hl⟩
  | phi hφ hl => exact ⟨h.dst_lt hφ, live hl⟩
  | phis _ hj hk =>
    exact ⟨h.dst_lt (List.mem_of_getElem? hj), h.dst_lt (List.mem_of_getElem? hk)⟩
  | params hu hv => exact ⟨param hu, param hv⟩
  | entry hu _ hl => exact ⟨param hu, live hl⟩

end Program

end ChordalAlloc
