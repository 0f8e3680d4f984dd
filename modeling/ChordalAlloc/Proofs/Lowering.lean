/-
ChordalAlloc/Proofs/Lowering.lean

Lowering succeeds on every well-formed program, and what it makes may stand
in for what it was given, with a true record of a copy for every operand of
every phi (`Program.lower_spec`).  It does so block by block and variable by
variable (`Program.lower_preserves`).

The work on a block `b` goes through its operands twice.  The first round
ends with no operand among the variables that the phis of `b` set; the
second records a copy for each operand.  During both rounds it is the view
that stands in for the program.  When all operands have been copied, the
phis name the right sources themselves, and program and view agree.
-/
import ChordalAlloc.Proofs.Checks
import ChordalAlloc.Proofs.Following
import ChordalAlloc.Proofs.Routing

namespace ChordalAlloc

open Program

namespace Lowering

variable {p : Program} {n : Nat} {l l' : Lowering} {b : Label} {k j : Nat} {a : PhiArg}
variable {spot : Placed} {cs : List EdgeCopy}

/-! ### What a step keeps -/

/-- A step for a block that no record is about. -/
theorem Routed.copy (h : Routed l l' b k j a spot) (hs : Staged p n (l.view b) cs)
    (hb : ∀ c ∈ cs, c.site.block ≠ b) : Staged p n (l'.view b) cs := by
  obtain ⟨q, init, hq, hc, -⟩ := h.copied
  rcases hq with rfl | ⟨hd, hjump⟩
  · exact hs.copy hc hb
  · exact (hs.detour hd hjump).copy hc hb

/-- A step that is recorded. -/
theorem Routed.record (h : Routed l l' b k j a spot) (hs : Staged p n (l.view b) cs)
    (hsite : ∀ c ∈ cs, c.site ≠ ⟨b, k, j⟩) (hx : a.value ∉ p.receivers b) :
    Staged p n (l'.view b)
      (cs ++ [⟨⟨b, k, j⟩, a.value, spot.dst, spot.location, spot.index⟩]) := by
  obtain ⟨q, init, hq, hc, hdst, hindex⟩ := h.copied
  rw [hdst, hindex]
  rcases hq with rfl | ⟨hd, hjump⟩
  · exact hs.record hc hsite (by rwa [hs.receivers])
  · have hs' := hs.detour hd hjump
    exact hs'.record hc hsite (by rwa [hs'.receivers])

/-- The variable of the copy is none of those that the phis set. -/
theorem Routed.dst_notMem (h : Routed l l' b k j a spot) (hs : Staged p n (l.view b) cs) :
    spot.dst ∉ p.receivers b := by
  obtain ⟨q, init, hq, -, hdst, -⟩ := h.copied
  have hvars : q.vars = (l.view b).vars := by
    rcases hq with rfl | ⟨hd, -⟩
    · rfl
    · exact hd.vars
  intro hmem
  rw [← hs.receivers] at hmem
  obtain ⟨φ, hφ, hφdst⟩ := mem_receivers.1 hmem
  have hlt := hs.refines.wellFormed.dst_lt hφ
  rw [hφdst, hdst, hvars] at hlt
  exact Nat.lt_irrefl _ hlt

/-- Runs of the new view follow those of the old one. -/
theorem Routed.shadows (h : Routed l l' b k j a spot) (hl : (l.view b).WellFormed n) :
    Shadows n (l.view b) (l'.view b) := by
  obtain ⟨q, init, hq, hc, -⟩ := h.copied
  rcases hq with rfl | ⟨hd, -⟩
  · exact hc.shadows hl
  · exact (hd.shadows hl).trans (hc.shadows (hd.wellFormed hl))

/-! ### Sites -/

theorem mem_sites {φs : List Phi} {s : Site} : s ∈ sites b φs ↔
    s.block = b ∧ ∃ φ, φs[s.phi]? = some φ ∧ s.arg < φ.args.length := by
  obtain ⟨c, m, i⟩ := s
  simp only [sites, List.mem_flatMap, List.mem_map, List.mem_range, Prod.exists,
    List.mk_mem_zipIdx_iff_getElem?, Site.mk.injEq]
  constructor
  · rintro ⟨φ, m', hφ, i', hi, rfl, rfl, rfl⟩
    exact ⟨rfl, φ, hφ, hi⟩
  · rintro ⟨rfl, φ, hφ, hi⟩
    exact ⟨φ, m, hφ, i, hi, rfl, rfl, rfl⟩

/-- The sites of a block are those of its operands. -/
theorem mem_sites_phis {q : Program} {s : Site} :
    s ∈ sites b (q.phis b) ↔ s.block = b ∧ (q.argAt? s).isSome = true := by
  rw [mem_sites]
  refine and_congr_right fun hb => ?_
  rw [argAt?, phiArg?_eq, hb]
  rcases (q.phis b)[s.phi]? with - | φ <;> simp

theorem nodup_sites (b : Label) (φs : List Phi) : (sites b φs).Nodup := by
  rw [sites, List.nodup_flatMap]
  constructor
  · rintro ⟨φ, m⟩ -
    refine List.nodup_range.map fun i i' h => ?_
    exact (Site.mk.inj h).2.2
  · have hnodup : (φs.zipIdx.map Prod.snd).Nodup := by
      rw [List.zipIdx_map_snd]
      exact List.nodup_range'
    refine (List.pairwise_map.1 hnodup).imp ?_
    rintro ⟨φ, m⟩ ⟨φ', m'⟩ hne s hs hs'
    obtain ⟨i, -, rfl⟩ := List.mem_map.1 hs
    obtain ⟨i', -, h⟩ := List.mem_map.1 hs'
    exact hne (Site.mk.inj h).2.1.symm

/-! ### The two rounds -/

/-- The state in the middle of the work on the phis of `b`. -/
structure Working (p : Program) (n : Nat) (b : Label) (l : Lowering) : Prop where
  staged : Staged p n (l.view b) l.copies.toList
  shadows : Shadows n p (l.view b)
  detoured : l.Detoured b

/-- The operand at a site of the block in work. -/
theorem Working.exists_arg (h : Working p n b l) {s : Site}
    (hs : (p.argAt? s).isSome = true) : ∃ a, l.program.argAt? s = some a := by
  rw [← h.staged.sites, argAt?_view, Option.isSome_map] at hs
  exact Option.isSome_iff_exists.1 hs

/-- Saving at a site leaves no operand there that a phi sets, and changes no other. -/
theorem saveSite_spec (h : Working p n b l) (hnew : ∀ c ∈ l.copies.toList, c.site.block ≠ b)
    {s : Site} (hb : s.block = b) (hs : (p.argAt? s).isSome = true) :
    ∃ l', saveSite (p.receivers b) l s = .ok l' ∧ Working p n b l' ∧ l'.copies = l.copies ∧
      ∀ t a, l'.program.argAt? t = some a → a.value ∈ p.receivers b →
        t ≠ s ∧ l.program.argAt? t = some a := by
  obtain ⟨a, ha⟩ := h.exists_arg hs
  obtain ⟨c, k, j⟩ := s
  obtain rfl : c = b := hb
  simp only [saveSite, show l.program.phiArg? c k j = some a from ha]
  by_cases hmem : a.value ∈ p.receivers c
  · obtain ⟨l', spot, hroute, hr⟩ := route_spec h.detoured h.staged.refines.wellFormed ha
    rw [if_pos (List.contains_iff_mem.2 hmem), hroute]
    refine ⟨_, rfl, ⟨?_, h.shadows.trans (hr.shadows h.staged.refines.wellFormed),
      ⟨hr.detoured.edge, hr.detoured.lt_source, hr.detoured.source⟩⟩,
      hr.copies, fun t a' ha' hmem' => ?_⟩
    · have hstaged := hr.copy h.staged hnew
      rw [← hr.copies] at hstaged
      exact hstaged
    · have hargs : (if t = ⟨c, k, j⟩ then some ⟨spot.location, spot.dst⟩
          else l.program.argAt? t) = some a' := (hr.args t).symm.trans ha'
      split at hargs
      · cases hargs
        exact absurd hmem' (hr.dst_notMem h.staged)
      · next hne => exact ⟨hne, hargs⟩
  · rw [if_neg (fun hc => hmem (List.contains_iff_mem.1 hc))]
    refine ⟨l, rfl, h, rfl, fun t a' ha' hmem' => ⟨?_, ha'⟩⟩
    rintro rfl
    rw [ha] at ha'
    cases ha'
    exact hmem hmem'

/-- After the first round no operand is among the variables that the phis of the block set. -/
theorem saveSites_spec (h : Working p n b l) (hnew : ∀ c ∈ l.copies.toList, c.site.block ≠ b)
    {ss : List Site} (hss : ∀ s, s ∈ ss ↔ s.block = b ∧ (p.argAt? s).isSome = true) :
    ∃ l', ss.foldlM (saveSite (p.receivers b)) l = .ok l' ∧ Working p n b l' ∧
      l'.copies = l.copies ∧
      ∀ s a, s.block = b → l'.program.argAt? s = some a → a.value ∉ p.receivers b := by
  have hfold : ∃ l', ss.foldlM (saveSite (p.receivers b)) l = .ok l' ∧
      Working p n b l' ∧ l'.copies = l.copies ∧
      ∀ s ∈ ss, ∀ a, l'.program.argAt? s = some a → a.value ∉ p.receivers b := by
    apply foldlM_ok_of_step fun past l' => Working p n b l' ∧ l'.copies = l.copies ∧
      ∀ s ∈ past, ∀ a, l'.program.argAt? s = some a → a.value ∉ p.receivers b
    · rintro past s rest l₁ hsplit ⟨hw, hcopies, hpast⟩
      obtain ⟨hb, hs⟩ := (hss s).1 (by rw [hsplit]; simp)
      obtain ⟨l₂, hsave, hw', hcopies', hargs⟩ := saveSite_spec hw (by rwa [hcopies]) hb hs
      refine ⟨l₂, hsave, hw', hcopies'.trans hcopies, fun t ht a ha hmem => ?_⟩
      obtain ⟨hne, hold⟩ := hargs t a ha hmem
      rcases List.mem_append.1 ht with ht | ht
      · exact hpast t ht a hold hmem
      · exact hne (List.mem_singleton.1 ht)
    · exact ⟨h, rfl, fun _ hs => absurd hs List.not_mem_nil⟩
  obtain ⟨l', hrun, hw, hcopies, hargs⟩ := hfold
  refine ⟨l', hrun, hw, hcopies, fun s a hb ha => hargs s ((hss s).2 ⟨hb, ?_⟩) a ha⟩
  rw [← hw.staged.sites, argAt?_view, ha]
  rfl

/-- Copying at a site records a copy, and the operand there comes from a block that leads to `b`. -/
theorem copySite_spec (h : Working p n b l) {s : Site} (hb : s.block = b)
    (hs : (p.argAt? s).isSome = true) (hnew : ∀ c ∈ l.copies.toList, c.site ≠ s)
    (hx : ∀ a, l.program.argAt? s = some a → a.value ∉ p.receivers b) :
    ∃ l' c, copySite l s = .ok l' ∧ Working p n b l' ∧
      l'.copies.toList = l.copies.toList ++ [c] ∧ c.site = s ∧
      (∀ d, (l.program.body d).getLast? = some (.jump b) →
        (l'.program.body d).getLast? = some (.jump b)) ∧
      ∀ t a, l'.program.argAt? t = some a → if t = s then
        a.value ∉ p.receivers b ∧ (l'.program.body a.source).getLast? = some (.jump b)
        else l.program.argAt? t = some a := by
  obtain ⟨a, ha⟩ := h.exists_arg hs
  obtain ⟨c, k, j⟩ := s
  obtain rfl : c = b := hb
  obtain ⟨l', spot, hroute, hr⟩ := route_spec h.detoured h.staged.refines.wellFormed ha
  simp only [copySite, show l.program.phiArg? c k j = some a from ha, hroute]
  have hcopies : (l'.copies.push ⟨⟨c, k, j⟩, a.value, spot.dst, spot.location, spot.index⟩).toList
      = l.copies.toList ++ [⟨⟨c, k, j⟩, a.value, spot.dst, spot.location, spot.index⟩] := by
    rw [Array.toList_push, hr.copies]
  refine ⟨_, _, rfl, ⟨?_, h.shadows.trans (hr.shadows h.staged.refines.wellFormed),
    ⟨hr.detoured.edge, hr.detoured.lt_source, hr.detoured.source⟩⟩,
    hcopies, rfl, hr.jumps, fun t a' ha' => ?_⟩
  · have hstaged := hr.record h.staged hnew (hx a ha)
    rw [← hcopies] at hstaged
    exact hstaged
  · have hargs : (if t = ⟨c, k, j⟩ then some ⟨spot.location, spot.dst⟩
        else l.program.argAt? t) = some a' := (hr.args t).symm.trans ha'
    split
    · next heq =>
      rw [if_pos heq] at hargs
      cases hargs
      exact ⟨hr.dst_notMem h.staged, hr.arrives⟩
    · next hne => rwa [if_neg hne] at hargs

/-- The state in the second round, which began with the records `cs` and has been at `past`. -/
structure Copying (p : Program) (n : Nat) (b : Label) (cs : List EdgeCopy) (past : List Site)
    (l : Lowering) : Prop where
  working : Working p n b l
  before : cs ⊆ l.copies.toList
  sites : ∀ c ∈ l.copies.toList, c ∈ cs ∨ c.site ∈ past
  recorded : ∀ s ∈ past, ∃ c ∈ l.copies.toList, c.site = s
  value : ∀ s a, s.block = b → l.program.argAt? s = some a → a.value ∉ p.receivers b
  source : ∀ s ∈ past, ∀ a, l.program.argAt? s = some a →
    (l.program.body a.source).getLast? = some (.jump b)

theorem Copying.step {past : List Site} (h : Copying p n b cs past l)
    (hcs : ∀ c ∈ cs, c.site.block ≠ b) {s : Site} (hb : s.block = b)
    (hs : (p.argAt? s).isSome = true) (hpast : s ∉ past) :
    ∃ l', copySite l s = .ok l' ∧ Copying p n b cs (past ++ [s]) l' := by
  have hnew : ∀ c ∈ l.copies.toList, c.site ≠ s := by
    rintro c hc rfl
    rcases h.sites c hc with hc | hc
    · exact hcs c hc hb
    · exact hpast hc
  obtain ⟨l', c, hcopy, hw, hcopies, hsite, hjumps, hargs⟩ :=
    copySite_spec h.working hb hs hnew (fun a => h.value s a hb)
  refine ⟨l', hcopy, hw, fun d hd => ?_, fun d hd => ?_, fun t ht => ?_, fun t a ht ha => ?_,
    fun t ht a ha => ?_⟩
  · rw [hcopies]
    exact List.mem_append_left _ (h.before hd)
  · rw [hcopies] at hd
    rcases List.mem_append.1 hd with hd | hd
    · exact (h.sites d hd).imp_right (List.mem_append_left _)
    · rw [List.mem_singleton.1 hd, hsite]
      exact .inr (List.mem_append_right _ List.mem_cons_self)
  · rw [hcopies]
    rcases List.mem_append.1 ht with ht | ht
    · obtain ⟨d, hd, hdt⟩ := h.recorded t ht
      exact ⟨d, List.mem_append_left _ hd, hdt⟩
    · rw [List.mem_singleton.1 ht]
      exact ⟨c, List.mem_append_right _ List.mem_cons_self, hsite⟩
  · have harg := hargs t a ha
    split at harg
    · exact harg.1
    · exact h.value t a ht harg
  · have harg := hargs t a ha
    split at harg
    · exact harg.2
    · next hne =>
      rcases List.mem_append.1 ht with ht | ht
      · exact hjumps _ (h.source t ht a harg)
      · exact absurd (List.mem_singleton.1 ht) hne

/-- When all operands have been copied, the program is its own view. -/
theorem Copying.view_eq {ss : List Site} (h : Copying p n b cs ss l)
    (hss : ∀ s, s ∈ ss ↔ s.block = b ∧ (p.argAt? s).isSome = true) : l.view b = l.program := by
  apply view_eq_self
  intro s a ha hb
  apply h.working.detoured.way_of_jump (t := b)
  refine h.source s ((hss s).2 ⟨hb, ?_⟩) a ha
  rw [← h.working.staged.sites, argAt?_view, ha]
  rfl

/-! ### Blocks and programs -/

/-- After the work on a block there is a record for each of its operands. -/
theorem lowerBlock_spec (h : Staged p n l.program l.copies.toList)
    (hshadows : Shadows n p l.program) (hb : b < p.blocks.size)
    (hnew : ∀ c ∈ l.copies.toList, c.site.block ≠ b) :
    ∃ l', lowerBlock l b = .ok l' ∧ Staged p n l'.program l'.copies.toList ∧
      Shadows n p l'.program ∧
      l.copies.toList ⊆ l'.copies.toList ∧
      (∀ c ∈ l'.copies.toList, c ∈ l.copies.toList ∨ c.site.block = b) ∧
      ∀ s, s.block = b → (p.argAt? s).isSome = true → ∃ c ∈ l'.copies.toList, c.site = s := by
  obtain ⟨block, hblock⟩ := exists_block (Nat.lt_of_lt_of_le hb h.size)
  have hset : block.phis.map (·.dst) = p.receivers b := by
    rw [← h.receivers, receivers, phis_of hblock]
  have hss : ∀ s, s ∈ sites b block.phis ↔ s.block = b ∧ (p.argAt? s).isSome = true := by
    intro s
    rw [← phis_of hblock, mem_sites_phis, h.sites]
  have hview : ({ l with detours := [] } : Lowering).view b = l.program := by
    apply view_eq_self
    intro s a _ _
    rw [way_of_nil rfl]
    rfl
  have hstart : Working p n b { l with detours := [] } :=
    ⟨by rw [hview]; exact h, by rw [hview]; exact hshadows, Detoured.of_nil rfl⟩
  obtain ⟨l₁, hsave, hw, hcopies, hvalue⟩ := saveSites_spec hstart hnew hss
  have hround : ∃ l', (sites b block.phis).foldlM copySite l₁ = .ok l' ∧
      Copying p n b l.copies.toList (sites b block.phis) l' := by
    apply foldlM_ok_of_step (Copying p n b l.copies.toList)
    · intro past s rest l₂ hsplit hc
      obtain ⟨hs, hsome⟩ := (hss s).1 (by rw [hsplit]; simp)
      refine hc.step hnew hs hsome fun hmem => ?_
      have hnodup := nodup_sites b block.phis
      rw [hsplit, List.nodup_append] at hnodup
      exact hnodup.2.2 s hmem s List.mem_cons_self rfl
    · refine ⟨hw, ?_, fun c hc => ?_, ?_, hvalue, ?_⟩
      · rw [hcopies]
        exact List.Subset.refl _
      · rw [hcopies] at hc
        exact .inl hc
      · exact fun _ hs => absurd hs List.not_mem_nil
      · exact fun _ hs => absurd hs List.not_mem_nil
  obtain ⟨l₂, hcopy, hc⟩ := hround
  refine ⟨l₂, ?_, ?_, ?_, hc.before, fun c hmem => ?_, fun s hs hsome => ?_⟩
  · simp only [lowerBlock, hblock, hset, hsave]
    exact hcopy
  · rw [← hc.view_eq hss]
    exact hc.working.staged
  · rw [← hc.view_eq hss]
    exact hc.working.shadows
  · exact (hc.sites c hmem).imp_right fun hsite => ((hss c.site).1 hsite).1
  · exact hc.recorded s ((hss s).2 ⟨hs, hsome⟩)

end Lowering

/-- Every operand of every phi is read through a recorded copy. -/
structure Program.Lowered (p : Program) (n : Nat) (q : Program) (cs : List EdgeCopy) : Prop
    extends Staged p n q cs where
  shadows : Shadows n p q
  recorded : ∀ s, (q.argAt? s).isSome = true → ∃ c ∈ cs, c.site = s

theorem Program.WellFormed.staged {p : Program} {n : Nat} (h : p.WellFormed n) :
    Staged p n p [] where
  refines := Refines.refl h
  records _ hc := absurd hc List.not_mem_nil
  nodup := List.nodup_nil
  vars := Nat.le_refl _
  fresh _ hc := absurd hc List.not_mem_nil
  size := Nat.le_refl _
  receivers _ := rfl
  sites _ := rfl

/-- Lowering a well-formed program succeeds. -/
theorem Program.lower_spec {p : Program} {n : Nat} (h : p.WellFormed n) :
    ∃ l, p.lower = .ok l ∧ Lowered p n l.program l.copies.toList := by
  have hfold : ∃ l, p.lower = .ok l ∧ Staged p n l.program l.copies.toList ∧
      Shadows n p l.program ∧ (∀ c ∈ l.copies.toList, c.site.block ∈ List.range p.blocks.size) ∧
      ∀ s, s.block ∈ List.range p.blocks.size → (p.argAt? s).isSome = true →
        ∃ c ∈ l.copies.toList, c.site = s := by
    apply foldlM_ok_of_step fun done (l : Lowering) => Staged p n l.program l.copies.toList ∧
      Shadows n p l.program ∧ (∀ c ∈ l.copies.toList, c.site.block ∈ done) ∧
      ∀ s, s.block ∈ done → (p.argAt? s).isSome = true → ∃ c ∈ l.copies.toList, c.site = s
    · rintro done b rest l hsplit ⟨hs, hshadows, hdone, hrecorded⟩
      have hb : b < p.blocks.size := by
        rw [← List.mem_range, hsplit]
        simp
      have hnodup := List.nodup_range (n := p.blocks.size)
      rw [hsplit, List.nodup_append] at hnodup
      have hnew : ∀ c ∈ l.copies.toList, c.site.block ≠ b := fun c hc =>
        hnodup.2.2 _ (hdone c hc) b List.mem_cons_self
      obtain ⟨l', hrun, hs', hshadows', hsub, hblocks, hrecorded'⟩ :=
        Lowering.lowerBlock_spec hs hshadows hb hnew
      refine ⟨l', hrun, hs', hshadows', fun c hc => ?_, fun s hs hsome => ?_⟩
      · rcases hblocks c hc with hc | hc
        · exact List.mem_append_left _ (hdone c hc)
        · rw [hc]
          exact List.mem_append_right _ List.mem_cons_self
      · rcases List.mem_append.1 hs with hs | hs
        · obtain ⟨c, hc, hcs⟩ := hrecorded s hs hsome
          exact ⟨c, hsub hc, hcs⟩
        · exact hrecorded' s (List.mem_singleton.1 hs) hsome
    · refine ⟨h.staged, Shadows.refl n p, ?_, ?_⟩
      · exact fun c hc => absurd hc List.not_mem_nil
      · exact fun s hs => absurd hs List.not_mem_nil
  obtain ⟨l, hrun, hs, hshadows, -, hrecorded⟩ := hfold
  refine ⟨l, hrun, hs, hshadows, fun s hsome => ?_⟩
  rw [hs.sites] at hsome
  refine hrecorded s (List.mem_range.2 ?_) hsome
  obtain ⟨a, ha⟩ := Option.isSome_iff_exists.1 hsome
  obtain ⟨φ, hφ, -⟩ := phi_of_site ha
  exact lt_size_of_phis (List.mem_of_getElem? hφ)

/-- **Lowering preserves what a program does and what its variables hold.**  Both programs show the
same behaviour.  Besides, the run of the new program goes through the same blocks in the same order,
with no others in between than those that were put on edges, and each time it has read the phis of
a block every variable of the old program has the value it has there in the run of the old one. -/
theorem Program.lower_preserves (p : Program) (hp : p.Indexed) (n : Nat)
    (hcheck : p.check n = .ok ()) :
    ∃ l, p.lower = .ok l ∧ ∀ (w : World) (args : Fin (n + 1) → Int64),
      SameBehavior (p.run w id args) (l.program.run w id args) ∧
      ∃ time, Follows p l.program (p.run w id args) (l.program.run w id args) time := by
  obtain ⟨l, hl, h⟩ := lower_spec (wellFormed_of_check hp hcheck)
  exact ⟨l, hl, fun w args => ⟨h.refines.behavior w args, h.shadows.follows w args⟩⟩

/-- A loop that swaps two variables: each phi reads what the other one sets, over an edge that
leads from a branch back to the same block. -/
def swapLoop : Program where
  vars := #[{ id := 0 }, { id := 1 }, { id := 2 }, { id := 3 }, { id := 4 }, { id := 5 }]
  blocks := #[
    { label := 0, body := [.const 1 7, .const 2 9, .jump 1] },
    { label := 1, phis := [⟨3, [⟨0, 1⟩, ⟨1, 4⟩]⟩, ⟨4, [⟨0, 2⟩, ⟨1, 3⟩]⟩],
      body := [.call (some 5) "more" [3, 4], .branch 5 1 2] },
    { label := 2, body := [.ret (some 3)] }]

theorem indexed_swapLoop : swapLoop.Indexed := by
  intro b block h
  rcases b with - | - | - | b <;> cases h <;> rfl

theorem check_swapLoop : swapLoop.check 0 = .ok () := by decide +kernel

theorem lower_preserves_swapLoop :
    swapLoop.check 0 = .ok () ∧ ∃ l, swapLoop.lower = .ok l ∧
      ∀ (w : World) (args : Fin 1 → Int64),
        SameBehavior (swapLoop.run w id args) (l.program.run w id args) ∧
        ∃ time, Follows swapLoop l.program (swapLoop.run w id args) (l.program.run w id args) time :=
  ⟨check_swapLoop, swapLoop.lower_preserves indexed_swapLoop 0 check_swapLoop⟩

end ChordalAlloc
