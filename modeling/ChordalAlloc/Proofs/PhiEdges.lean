/-
ChordalAlloc/Proofs/PhiEdges.lean

What the program looks like when all phis have been lowered, in terms of the
program before (`Program.PhiEdges`).

An edge to a block with phis has a copy for each of them, after a copy for
each operand that has to be saved.  They are before the jump if the edge
starts at one.  Otherwise they have a block of their own, and it is this
block that the edge leads to now.  So the graph of blocks is the old one with
these edges subdivided (`PhiEdges.edge_iff`), and the counts that lowering
keeps are those of the edges, the operands and the operands that were saved
(`Program.lower_edits`).
-/
import ChordalAlloc.Proofs.EdgeCode

namespace ChordalAlloc

open Program

namespace Program

/-- The program `q` is `p` with copies on the edges that lead to phis.  The edges of `split` have a
block for them; the copies for an entry set `save` and `dst` of it. -/
structure PhiEdges (p q : Program) (split : List (Label × Label)) (save dst : Site → Var) :
    Prop where
  nodup : split.Nodup
  /-- An edge has got a block if it leads to phis and does not start at a jump. -/
  split_iff : ∀ s b, (s, b) ∈ split ↔ p.Splits s b
  /-- These are all new blocks. -/
  size : q.blocks.size = p.blocks.size + split.length
  indexed : q.Indexed
  receivers : ∀ b, q.receivers b = p.receivers b
  /-- An entry reads the copy from where it is. -/
  args : ∀ t, q.argAt? t = (p.argAt? t).map fun a =>
    ⟨(p.between split a.source t.block).getD a.source, dst t⟩
  /-- A block that ends in a jump has the copies before it. -/
  jump : ∀ s init b, p.body s = init ++ [.jump b] →
    q.body s = init ++ p.edgeCode save dst s b ++ [.jump b]
  /-- Any other block goes to the new blocks instead, where there are any. -/
  other : ∀ s init t, p.body s = init ++ [t] → (∀ b, t ≠ .jump b) →
    q.body s = init ++ [t.reroute fun b => (p.between split s b).getD b]
  /-- A new block has the copies and goes where the edge did. -/
  new : ∀ s b e, p.between split s b = some e →
    q.body e = p.edgeCode save dst s b ++ [.jump b]
  /-- Copies set no variable that there was. -/
  fresh : ∀ t a, p.argAt? t = some a → p.vars.size ≤ dst t ∧
    (a.value ∈ p.receivers t.block → p.vars.size ≤ save t)

/-- The operands of all phis, each with the block of its phi. -/
def incomings (p : Program) : List (Label × PhiArg) :=
  (List.range p.blocks.size).flatMap fun b => ((p.phis b).flatMap (·.args)).map fun a => (b, a)

variable {p q : Program} {n : Nat} {split : List (Label × Label)} {save dst : Site → Var}

/-! ### The graph of blocks -/

namespace PhiEdges

/-- Where a block of the old program goes now. -/
theorem targets (h : p.PhiEdges q split save dst) (hp : p.WellFormed n) {a : Label}
    (ha : a < p.blocks.size) :
    q.targets a = (p.targets a).map fun b => (p.between split a b).getD b := by
  obtain ⟨init, t, hbody, ht, -⟩ := hp.closed a ha
  have hp' : p.targets a = t.targets := by
    rw [Program.targets, hbody, List.getLast?_concat]
    rfl
  by_cases hjump : ∃ b, t = .jump b
  · obtain ⟨b, rfl⟩ := hjump
    have hnone : (a, b) ∉ split := by
      rw [h.split_iff]
      intro hs
      exact hs.2.2 b (by rw [hbody, List.getLast?_concat])
    rw [hp', Program.targets, h.jump a init b hbody, List.getLast?_concat]
    simp [Instr.targets, between_eq_none hnone]
  · rw [hp', Program.targets, h.other a init t hbody fun b hb => hjump ⟨b, hb⟩,
      List.getLast?_concat]
    simp

/-- **The graph of blocks is the old one with some edges subdivided.** -/
theorem edge_iff (h : p.PhiEdges q split save dst) (hp : p.WellFormed n) (a c : Label) :
    q.Edge a c ↔ p.Edge a c ∧ (a, c) ∉ split ∨
      (∃ b, p.between split a b = some c) ∨ ∃ s, p.between split s c = some a := by
  have hsource : ∀ {s b e}, p.between split s b = some e → p.Edge s b := fun hvia =>
    ((h.split_iff _ _).1 (between_bounds hvia).1).1
  have hold : ∀ {c}, c < p.blocks.size → c < q.blocks.size := fun hc =>
    h.size ▸ Nat.lt_of_lt_of_le hc (Nat.le_add_right _ _)
  rcases Nat.lt_or_ge a p.blocks.size with ha | ha
  · rw [Edge, h.targets hp ha, List.mem_map]
    constructor
    · rintro ⟨⟨b, hb, rfl⟩, -⟩
      rcases hvia : p.between split a b with - | e
      · refine .inl ⟨⟨hb, hp.targets_lt a b hb⟩, fun hmem => ?_⟩
        have hsome : p.between split a b = some _ := if_pos hmem
        rw [hvia] at hsome
        cases hsome
      · exact .inr (.inl ⟨b, hvia⟩)
    · rintro (⟨he, hnone⟩ | ⟨b, hvia⟩ | ⟨s, hvia⟩)
      · exact ⟨⟨c, he.1, by rw [between_eq_none hnone]; rfl⟩, hold he.2⟩
      · exact ⟨⟨b, (hsource hvia).1, by rw [hvia]; rfl⟩, h.size ▸ (between_bounds hvia).2.2⟩
      · exact absurd ha (Nat.not_lt_of_le (between_bounds hvia).2.1)
  · have htargets : ∀ {s b}, p.between split s b = some a → q.targets a = [b] := by
      intro s b hvia
      rw [Program.targets, h.new s b a hvia, List.getLast?_concat]
      rfl
    constructor
    · intro he
      obtain ⟨s, b, hvia⟩ := exists_between h.nodup ha (h.size ▸ he.lt_size)
      have hc := he.1
      rw [htargets hvia, List.mem_singleton] at hc
      exact .inr (.inr ⟨s, hc ▸ hvia⟩)
    · rintro (⟨he, -⟩ | ⟨b, hvia⟩ | ⟨s, hvia⟩)
      · exact absurd he.lt_size (Nat.not_lt_of_le ha)
      · exact absurd (hsource hvia).lt_size (Nat.not_lt_of_le ha)
      · refine ⟨?_, hold (hsource hvia).2⟩
        rw [htargets hvia]
        exact List.mem_cons_self

end PhiEdges

/-! ### Operands -/

theorem argAt?_of_phi {b : Label} {k : Nat} {φ : Phi} (hφ : (p.phis b)[k]? = some φ) (j : Nat) :
    p.argAt? ⟨b, k, j⟩ = φ.args[j]? := by
  rw [argAt?, phiArg?_eq, hφ]
  rfl

/-- The entries of the phis of a block, one after the other, hold all their operands. -/
theorem map_argAt?_sitesOf (p : Program) (b : Label) :
    (p.sitesOf b).map p.argAt? = ((p.phis b).flatMap (·.args)).map some := by
  have hphi : ∀ x ∈ (p.phis b).zipIdx,
      ((List.range x.1.args.length).map fun j => (⟨b, x.2, j⟩ : Site)).map p.argAt?
        = x.1.args.map some := by
    rintro ⟨φ, k⟩ hx
    rw [List.map_map]
    apply List.ext_getElem
    · simp
    · intro j h₁ h₂
      simp [argAt?_of_phi (List.mk_mem_zipIdx_iff_getElem?.1 hx)]
  rw [sitesOf, Lowering.sites, List.map_flatMap, List.flatMap_congr hphi, List.map_flatMap]
  conv_rhs => rw [← List.zipIdx_map_fst 0 (p.phis b), List.flatMap_map]

theorem length_incomings (p : Program) :
    ((List.range p.blocks.size).flatMap p.sitesOf).length = p.incomings.length := by
  rw [incomings, List.length_flatMap, List.length_flatMap]
  congr 1
  refine List.map_congr_left fun b _ => ?_
  have := congrArg List.length (map_argAt?_sitesOf p b)
  simpa using this

/-- The operands that are saved are those that a phi of their block sets. -/
theorem countP_incomings (p : Program) :
    ((List.range p.blocks.size).flatMap p.sitesOf).countP (Lowering.isSaved p) =
      p.incomings.countP fun i => decide (i.2.value ∈ p.receivers i.1) := by
  rw [incomings, List.countP_flatMap, List.countP_flatMap]
  congr 1
  refine List.map_congr_left fun b _ => ?_
  have hblock : (p.sitesOf b).countP (Lowering.isSaved p) = ((p.sitesOf b).map p.argAt?).countP
      fun a? => a?.any fun a => decide (a.value ∈ p.receivers b) := by
    rw [List.countP_map]
    refine List.countP_congr fun t ht => ?_
    rw [Lowering.isSaved, (Lowering.mem_sitesOf.1 ht).1]
    rfl
  rw [Function.comp_apply, Function.comp_apply, hblock, map_argAt?_sitesOf, List.countP_map,
    List.countP_map]
  rfl

/-- Control that comes over an edge finds one entry in each phi. -/
theorem WellFormed.phi_entriesFrom (hp : p.WellFormed n) {s b : Label} (he : p.Edge s b) :
    (p.entriesFrom s (p.sitesOf b)).map (·.1.phi) = List.range (p.phis b).length := by
  have hphi : ∀ x ∈ (p.phis b).zipIdx,
      (p.entriesFrom s ((List.range x.1.args.length).map fun j => (⟨b, x.2, j⟩ : Site))).map
        (·.1.phi) = [x.2] := by
    rintro ⟨φ, k⟩ hx
    have hφ := List.mk_mem_zipIdx_iff_getElem?.1 hx
    obtain ⟨hnodup, hsources⟩ := hp.phi_args b φ (List.mem_of_getElem? hφ)
    obtain ⟨a, ha, rfl⟩ := List.mem_map.1 ((hsources s).2 he)
    obtain ⟨j, hj⟩ := List.mem_iff_getElem?.1 ha
    have hlt := (List.getElem?_eq_some_iff.1 hj).1
    have hentries : p.entriesFrom a.source
        ((List.range φ.args.length).map fun j => (⟨b, k, j⟩ : Site)) = [(⟨b, k, j⟩, a.value)] := by
      rw [entriesFrom, List.filterMap_map]
      apply filterMap_eq_singleton List.nodup_range (List.mem_range.2 hlt)
      · simp [argAt?_of_phi hφ, hj]
      · intro i hi hsome
        rw [List.mem_range] at hi
        -- two entries with the same source are the same entry
        have hsource : φ.args[i].source = a.source := by
          by_contra hne
          simp [argAt?_of_phi hφ, hi, hne] at hsome
        refine (List.getElem?_inj (by rwa [List.length_map]) hnodup).1 ?_
        rw [List.getElem?_map, List.getElem?_map, hj, List.getElem?_eq_getElem hi, Option.map_some,
          Option.map_some, hsource]
    rw [hentries]
    rfl
  rw [entriesFrom, sitesOf, Lowering.sites, List.filterMap_flatMap, List.map_flatMap]
  refine (List.flatMap_congr hphi).trans ?_
  rw [← List.map_eq_flatMap, List.zipIdx_map_snd, List.range_eq_range']

/-! ### All edits -/

theorem edgeCode_of_ge {s b : Label} (hb : p.blocks.size ≤ b) : p.edgeCode save dst s b = [] := by
  rw [edgeCode, sitesOf, phis_of_le hb]
  rfl

end Program

/-- When all phis have been lowered, the edges that lead to phis have their copies. -/
theorem Lowering.Finished.phiEdges {p : Program} {n : Nat} {save : Site → Var} {E : Edits}
    {l : Lowering} (h : Finished p (List.range p.blocks.size) save E l) (hp : p.WellFormed n) :
    p.PhiEdges l.program E.split save fun t => (E.read t).getD 0 := by
  have hcode : ∀ s c, E.code s c = p.edgeCode save (fun t => (E.read t).getD 0) s c := by
    intro s c
    rw [h.code]
    split
    · rfl
    · next hc =>
      rw [List.mem_range] at hc
      exact (edgeCode_of_ge (Nat.le_of_not_lt hc)).symm
  have hread : ∀ {t a}, p.argAt? t = some a → ∃ y, E.read t = some y := by
    intro t a ha
    refine Option.isSome_iff_exists.1 ((h.reads t).2 ⟨?_, by rw [ha]; rfl⟩)
    exact List.mem_range.2 (hp.edge_of_arg ha).2
  refine ⟨h.laid.nodup, fun s b => ⟨h.laid.splits s b, fun hs => ?_⟩, h.laid.size, h.laid.indexed,
    h.laid.receivers, fun t => ?_, fun s init b hbody => ?_, fun s init t hbody ht => ?_,
    fun s b e hvia => ?_, fun t a ha => ?_⟩
  · obtain ⟨φ, hφ⟩ := List.exists_mem_of_ne_nil _ hs.2.1
    obtain ⟨a, ha, rfl⟩ := List.mem_map.1 (((hp.phi_args b φ hφ).2 s).2 hs.1)
    obtain ⟨t, ⟨rfl, -⟩, harg⟩ := exists_site hφ ha
    obtain ⟨y, hy⟩ := hread harg
    exact h.laid.settled t a (by rw [hy]; rfl) harg hs
  · rw [h.laid.args]
    rcases ha : p.argAt? t with - | a
    · rfl
    · obtain ⟨y, hy⟩ := hread ha
      rw [Option.map_some, Option.map_some, Edits.shown_of_some hy, hy]
      rfl
  · have hnone : (s, b) ∉ E.split := fun hmem =>
      (h.laid.splits s b hmem).2.2 b (by rw [hbody, List.getLast?_concat])
    rw [h.laid.old s init _ hbody, ← hcode]
    simp [Edits.ahead, Instr.reroute, Edits.target, between_eq_none hnone]
  · rw [h.laid.old s init t hbody, E.ahead_of_ne s ht, List.append_nil]
    rfl
  · rw [h.laid.new s b e hvia, hcode]
  · obtain ⟨y, hy⟩ := hread ha
    refine ⟨?_, fun hmem => h.fresh_save t (List.mem_range.2 (hp.edge_of_arg ha).2) ?_⟩
    · rw [hy]
      exact h.fresh t y hy
    · rw [Lowering.isSaved, ha]
      exact decide_eq_true hmem

/-- **Lowering edits exactly the edges that lead to phis.**  Of a program that passes the check, the
blocks, their phis and what comes before their terminators stay where they were.  An edge that leads
to phis gets its copies, one for each phi after one for each operand that has to be saved.  They are
before the jump that it starts at, or else in a block of its own.  The graph of blocks is the old one
with the edges subdivided that got a block, and the counts are those of these edges, of all operands,
and of the operands that were saved.  No two copies set the same variable, since the program stays
well formed. -/
theorem Program.lower_edits (p : Program) (hp : p.Indexed) (n : Nat) (hcheck : p.check n = .ok ()) :
    ∃ l split save dst, p.lower = .ok l ∧ l.program.WellFormed n ∧
      p.PhiEdges l.program split save dst ∧
      (∀ s b, p.Edge s b →
        (p.entriesFrom s (p.sitesOf b)).map (·.1.phi) = List.range (p.phis b).length) ∧
      (∀ a c, l.program.Edge a c ↔ p.Edge a c ∧ (a, c) ∉ split ∨
        (∃ b, p.between split a b = some c) ∨ ∃ s, p.between split s c = some a) ∧
      l.splits = split.length ∧ l.copies.size = p.incomings.length ∧
      l.saved = p.incomings.countP (fun i => decide (i.2.value ∈ p.receivers i.1)) ∧
      l.program.vars.size = p.vars.size + l.copies.size + l.saved := by
  have hw := wellFormed_of_check hp hcheck
  obtain ⟨l, E, save, hlower, hdone⟩ := Lowering.finished_lower hw
  obtain ⟨l', hlower', hl⟩ := lower_spec hw
  obtain rfl : l = l' := Except.ok.inj (hlower.symm.trans hlower')
  have hedges := hdone.phiEdges hw
  have hcopies := congrArg List.length hdone.copies
  rw [List.length_map, Array.length_toList, length_incomings] at hcopies
  exact ⟨l, E.split, save, _, hlower, hl.refines.wellFormed, hedges, fun s b => hw.phi_entriesFrom,
    hedges.edge_iff hw, hdone.splits, hcopies, hdone.saved.trans p.countP_incomings, hdone.vars⟩

/-- The loop has two phis, which swap.  Its back edge starts at a branch, and both operands on it
have to be saved. -/
theorem Program.lower_edits_swapLoop :
    swapLoop.check 0 = .ok () ∧ ∃ l split save dst, swapLoop.lower = .ok l ∧
      swapLoop.PhiEdges l.program split save dst ∧ (1, 1) ∈ split ∧ (0, 1) ∉ split ∧
      l.splits = split.length ∧ l.copies.size = 4 ∧ l.saved = 2 ∧ l.program.vars.size = 12 := by
  obtain ⟨l, split, save, dst, hlower, -, hedges, -, -, hsplits, hcopies, hsaved, hvars⟩ :=
    swapLoop.lower_edits indexed_swapLoop 0 check_swapLoop
  have hfour : l.copies.size = 4 := hcopies.trans (by decide +kernel)
  have htwo : l.saved = 2 := hsaved.trans (by decide +kernel)
  refine ⟨check_swapLoop, l, split, save, dst, hlower, hedges, ?_, ?_, hsplits, hfour, htwo, ?_⟩
  · exact (hedges.split_iff 1 1).2 ⟨⟨by decide, by decide⟩, by decide, nofun⟩
  · rw [hedges.split_iff]
    exact fun hs => hs.2.2 1 rfl
  · rw [hvars, hfour, htwo]
    rfl

end ChordalAlloc
