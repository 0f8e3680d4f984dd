/-
ChordalAlloc/Proofs/Assignment.lean

From merged classes to registers in the table of variables.

Coloring merged classes succeeds and gives every variable a place that
serves (`Merged.colored`); this includes the classes of the phis as lowering
leaves them (`lower_classes`).  The colors are entered in the table as they are
(`assigned_spec`, `register?_setRegisters`), and taking the phis out loses
nothing, since they can be put back (`restorePhis_withoutPhis`).  So the
audit of the result passes (`Serves.audit`).
-/
import ChordalAlloc.Allocation
import ChordalAlloc.Proofs.Audit
import ChordalAlloc.Proofs.Colorability
import ChordalAlloc.Proofs.Merging

namespace ChordalAlloc

namespace Program

variable {q : Program} {n : Nat} {g : Graph} {c : Partition} {colors : Colors}

/-- Every variable has a color, and the colors are places that serve. -/
structure Serves (q : Program) (n : Nat) (colors : Colors) : Prop where
  size : colors.size = q.vars.size
  all : ∀ v, v < q.vars.size → (colors[v]?).join.isSome = true
  housed : q.Housed n colors.home

/-! ### Coloring merged classes -/

theorem join_pinnedColors (q : Program) (n v : Nat) : ((q.pinnedColors n)[v]?).join =
    if v < q.vars.size ∧ v ≤ n then some v else none := by
  rw [pinnedColors, Array.getElem?_map, Array.getElem?_range]
  by_cases hv : v < q.vars.size
  · by_cases hn : v ≤ n <;> simp [hv, hn]
  · simp [hv]

theorem size_pinnedColors (q : Program) (n : Nat) : (q.pinnedColors n).size = q.vars.size := by
  rw [pinnedColors, Array.size_map, Array.size_range]

/-- A pinned color is the number of its variable. -/
theorem eq_of_pinnedColors {v x : Nat} (h : ((q.pinnedColors n)[v]?).join = some x) :
    x = v ∧ v ≤ n := by
  rw [join_pinnedColors] at h
  split at h
  · next hv => exact ⟨(Option.some.inj h).symm, hv.2⟩
  · cases h

/-- No two parameters are in one class. -/
theorem Merged.param_unique (h : Merged n g q c) {u v : Var} (hu : u ≤ n) (hv : v ≤ n)
    (hroot : c.root u = c.root v) : u = v := by
  by_contra hne
  obtain ⟨u', v', hadj, hu', hv'⟩ := h.covers u v hne (.params hu hv)
  exact h.apart u' v' hadj (by rw [hu', hv', hroot])

/-- **Merged classes can be colored, and the colors serve.** -/
theorem Merged.colored (h : Merged n g q c) (hg : g.Sound) (hq : q.WellFormed n) : ∃ k,
    g.colorClasses c.numbering.1.toArray (q.pinnedColors n) = .ok k ∧ q.Serves n k.colors := by
  have hsize := h.graph
  obtain ⟨hlength, hnumber⟩ := Partition.numbering_spec h.forest
  have hgc : g.size = c.size := hsize.trans h.size.symm
  have hclass : ∀ u v, u < g.size → v < g.size →
      (c.numbering.1.toArray[u]? = c.numbering.1.toArray[v]? ↔ c.root u = c.root v) := by
    intro u v hu hv
    rw [List.getElem?_toArray, List.getElem?_toArray]
    exact hnumber u v (hgc ▸ hu) (hgc ▸ hv)
  have hlt : ∀ {v}, v ≤ n → v < g.size := fun hv =>
    hsize ▸ Nat.lt_of_le_of_lt hv hq.params
  -- a pinned color tells its class from all others
  have hcolorable : g.Colorable c.numbering.1.toArray (q.pinnedColors n) := by
    have hproper : ∀ u v, g.adjacent u v = true →
        c.numbering.1.toArray[u]? ≠ c.numbering.1.toArray[v]? := fun u v hadj heq =>
      h.apart u v hadj ((hclass u v (Graph.lt_size_of_adjacent hadj) (hg.lt_size hadj)).1 heq)
    refine ⟨hproper, fun u v a b ha hb heq => ?_, fun u v u' v' x hadj hu' hv' hu hv => ?_⟩
    · obtain ⟨rfl, hu⟩ := eq_of_pinnedColors ha
      obtain ⟨rfl, hv⟩ := eq_of_pinnedColors hb
      exact h.param_unique hu hv ((hclass _ _ (hlt hu) (hlt hv)).1 heq)
    · obtain ⟨rfl, -⟩ := eq_of_pinnedColors hu
      obtain ⟨rfl, -⟩ := eq_of_pinnedColors hv
      exact hproper u v hadj (hu'.symm.trans hv')
  have hclasses : c.numbering.1.toArray.size = g.size := by
    rw [List.size_toArray, hlength, hgc]
  have hpinned : (q.pinnedColors n).size = g.size := by rw [size_pinnedColors, hsize]
  obtain ⟨k, hrun⟩ := hcolorable.exists_coloring hg hclasses hpinned
  obtain ⟨hcolors, hall, hkept, hsame, hapart⟩ :=
    Graph.properlyColored_of_colorClasses hg hclasses hpinned hrun
  have hhome : ∀ u v, u < g.size → v < g.size → c.root u = c.root v →
      (k.colors[u]?).join = (k.colors[v]?).join := fun u v hu hv hroot =>
    hsame u v hu hv ((hclass u v hu hv).2 hroot)
  rw [hsize] at hcolors hall hhome
  refine ⟨k, hrun, hcolors, hall, fun v hv => ?_, fun b φ a hφ ha => ?_,
    fun u v huv hclash heq => ?_⟩
  · apply home_of_join
    apply hkept
    rw [join_pinnedColors, if_pos ⟨Nat.lt_of_le_of_lt hv hq.params, hv⟩]
  · have hroot := (h.phis b φ a hφ ha).symm
    rw [Colors.home, Colors.home, hhome _ _ (hq.arg_lt hφ ha) (hq.dst_lt hφ) hroot]
  · obtain ⟨u', v', hadj, hu', hv'⟩ := h.covers u v huv hclash
    obtain ⟨hu, hv⟩ := hq.clash_lt hclash
    have hlu := Graph.lt_size_of_adjacent hadj
    have hlv := hg.lt_size hadj
    rw [hsize] at hlu hlv
    apply hapart u' v' hadj
    rw [hhome u' u hlu hu hu', hhome v' v hlv hv hv', join_eq_home (hall u hu),
      join_eq_home (hall v hv), heq]

/-- **What phis tie together after lowering can share a register.**  Lowering keeps the phis and
copies each of their operands to a new variable.  Each phi of the program that was lowered then has
a class of its own: the variable it sets and the new variables that its operands are copied to.
Every other variable is alone, no class has two variables that interfere, and so the classes can be
colored with the parameters in their places, before any copy is dropped. -/
theorem lower_classes (p : Program) (hp : p.Indexed) (n : Nat) (hcheck : p.check n = .ok ()) :
    ∃ l, p.lower = .ok l ∧ CopiedPhis p l.program l.copies.toList ∧
      (∀ b k r, (p.receivers b)[k]? = some r → ∀ v,
        l.program.phiClasses.classes.root v = l.program.phiClasses.classes.root r ↔
          v = r ∨ ∃ e ∈ l.copies.toList, e.site.block = b ∧ e.site.phi = k ∧ e.dst = v) ∧
      (∀ v, (∀ b, v ∉ p.receivers b) → (∀ e ∈ l.copies.toList, e.dst ≠ v) →
        ∀ u, l.program.phiClasses.classes.root u = l.program.phiClasses.classes.root v → u = v) ∧
      (∀ u v, l.program.phiClasses.classes.root u = l.program.phiClasses.classes.root v →
        (l.program.interference l.program.liveness n).adjacent u v = false) ∧
      ∃ k, (l.program.interference l.program.liveness n).colorClasses
        l.program.phiClasses.classes.numbering.1.toArray (l.program.pinnedColors n) = .ok k := by
  obtain ⟨l, hl, h⟩ := lower_spec (wellFormed_of_check hp hcheck)
  obtain ⟨k, hcolor, -⟩ :=
    h.merged.colored (sound_interference l.program n) h.refines.wellFormed
  refine ⟨l, hl, h.copiedPhis, fun b k r hr v => h.root_eq_receiver_iff (h.receivers b ▸ hr),
    fun v hv hcopy u => h.eq_of_root_eq (fun b => h.receivers b ▸ hv b) hcopy,
    fun u v hroot => ?_, k, hcolor⟩
  by_contra hadj
  exact h.root_ne (Bool.eq_true_of_not_eq_false hadj) hroot

theorem lower_classes_swapLoop :
    swapLoop.check 0 = .ok () ∧ swapLoop.receivers 1 = [3, 4] ∧
    ∃ l, swapLoop.lower = .ok l ∧ CopiedPhis swapLoop l.program l.copies.toList ∧
      (∀ b k r, (swapLoop.receivers b)[k]? = some r → ∀ v,
        l.program.phiClasses.classes.root v = l.program.phiClasses.classes.root r ↔
          v = r ∨ ∃ e ∈ l.copies.toList, e.site.block = b ∧ e.site.phi = k ∧ e.dst = v) ∧
      (∀ v, (∀ b, v ∉ swapLoop.receivers b) → (∀ e ∈ l.copies.toList, e.dst ≠ v) →
        ∀ u, l.program.phiClasses.classes.root u = l.program.phiClasses.classes.root v → u = v) ∧
      (∀ u v, l.program.phiClasses.classes.root u = l.program.phiClasses.classes.root v →
        (l.program.interference l.program.liveness 0).adjacent u v = false) ∧
      ∃ k, (l.program.interference l.program.liveness 0).colorClasses
        l.program.phiClasses.classes.numbering.1.toArray (l.program.pinnedColors 0) = .ok k :=
  ⟨check_swapLoop, by decide, swapLoop.lower_classes indexed_swapLoop 0 check_swapLoop⟩

/-! ### Registers in the table -/

/-- The register of a variable, according to the table. -/
def register? (p : Program) (v : Var) : Option Nat := p.vars[v]?.bind (·.register)

/-- The place of a variable, according to the table. -/
def home (p : Program) (v : Var) : Nat := (p.register? v).getD 0

/-- The registers are the colors, one for each variable. -/
theorem assigned_spec (hsize : colors.size = q.vars.size)
    (hall : ∀ v, v < q.vars.size → (colors[v]?).join.isSome = true) : ∃ registers,
    q.assigned colors = .ok registers ∧ registers.length = q.vars.size ∧
      ∀ v : Var, (colors[v]?).join = registers[v]? := by
  have hlength : colors.toList.length = q.vars.toList.length := by
    rw [Array.length_toList, Array.length_toList, hsize]
  have hcolor : ∀ v, v < q.vars.size → ∃ x, colors[v]? = some (some x) := fun v hv =>
    ⟨_, Option.join_eq_some_iff.1 (join_eq_home (hall v hv))⟩
  have hrun : q.assigned colors
      = .ok ((q.vars.toList.zip colors.toList).map fun x => x.2.getD 0) := by
    apply mapM_eq_ok
    rintro ⟨x, k⟩ hx
    obtain ⟨v, hv⟩ := List.mem_iff_getElem?.1 (List.of_mem_zip hx).2
    rw [Array.getElem?_toList] at hv
    obtain ⟨r, hr⟩ := hcolor v (hsize ▸ (Array.getElem?_eq_some_iff.1 hv).1)
    rw [hv, Option.some.injEq] at hr
    rw [hr]
    rfl
  have hmap : ((q.vars.toList.zip colors.toList).map fun x => x.2.getD 0)
      = colors.toList.map (·.getD 0) := by
    have hsnd := congrArg (List.map (·.getD 0)) (List.map_snd_zip (Nat.le_of_eq hlength))
    rw [List.map_map] at hsnd
    exact hsnd
  rw [hmap] at hrun
  refine ⟨_, hrun, ?_, fun v => ?_⟩
  · rw [List.length_map, hlength, Array.length_toList]
  · rw [List.getElem?_map, Array.getElem?_toList]
    by_cases hv : v < q.vars.size
    · obtain ⟨r, hr⟩ := hcolor v hv
      rw [hr]
      rfl
    · rw [Array.getElem?_eq_none (hsize ▸ Nat.le_of_not_lt hv)]
      rfl

/-- Variables that had no register get that of the list. -/
theorem register?_setRegisters (hq : q.WellFormed n) (registers : List Nat)
    (hlength : registers.length = q.vars.size) (v : Var) :
    (q.setRegisters registers).register? v = registers[v]? := by
  rw [register?, setRegisters, Array.getElem?_mapIdx]
  rcases hv : q.vars[v]? with - | x
  · have hle : q.vars.size ≤ v := Array.getElem?_eq_none_iff.1 hv
    rw [List.getElem?_eq_none (hlength ▸ hle)]
    rfl
  · rcases registers[v]? with - | r
    · exact (hq.slots v x hv).2
    · rfl

theorem size_setRegisters (registers : List Nat) :
    (q.setRegisters registers).vars.size = q.vars.size := Array.size_mapIdx

theorem join_registers (p : Program) (v : Var) :
    (p.registers.toArray[v]?).join = p.register? v := by
  rw [registers, List.getElem?_toArray, List.getElem?_map, Array.getElem?_toList, register?]
  rcases p.vars[v]? with - | x <;> rfl

/-! ### Phis out and in again -/

/-- The phis that a list has for a block. -/
def phisFor (φs : List (Label × Phi)) (b : Label) : List Phi :=
  (φs.filter (·.1 = b)).map (·.2)

theorem phisFor_concat (φs : List (Label × Phi)) (b c : Label) (φ : Phi) :
    phisFor (φs ++ [(c, φ)]) b = if b = c then phisFor φs b ++ [φ] else phisFor φs b := by
  rw [phisFor, List.filter_append, List.map_append]
  by_cases h : b = c
  · rw [if_pos h, h]
    simp [phisFor]
  · rw [if_neg h]
    simp [phisFor, Ne.symm h]

/-- The phis of a block are those listed with its label. -/
theorem phisFor_labelledPhis (hp : q.Indexed) (b : Label) :
    phisFor q.labelledPhis b = q.phis b := by
  have hblocks : ∀ (blocks : List Block) (k : Nat),
      (∀ (i : Nat) (x : Block), blocks[i]? = some x → x.label = k + i) →
      phisFor (blocks.flatMap fun x => x.phis.map fun φ => (x.label, φ)) b
        = if k ≤ b then (blocks[b - k]?.map (·.phis)).getD [] else [] := by
    intro blocks
    induction blocks with
    | nil =>
      intro k _
      simp [phisFor]
    | cons x blocks ih =>
      intro k hlabel
      have hx : x.label = k := hlabel 0 x rfl
      have hrest := ih (k + 1) fun i y hy =>
        (hlabel (i + 1) y hy).trans (Nat.add_right_comm k i 1)
      rw [List.flatMap_cons, phisFor, List.filter_append, List.map_append]
      rw [phisFor] at hrest
      rw [hrest, hx]
      rcases Nat.lt_trichotomy b k with hlt | rfl | hgt
      · simp [Nat.ne_of_gt hlt, Nat.not_le.2 hlt, Nat.not_le.2 (Nat.lt_succ_of_lt hlt)]
      · simp [List.filter_map, Function.comp_def]
      · obtain ⟨d, rfl⟩ := Nat.exists_eq_add_of_lt hgt
        have hsub : k + d + 1 - k = d + 1 := by omega
        have hsub' : k + d + 1 - (k + 1) = d := by omega
        have hne : ¬ k = k + d + 1 := by omega
        have hle : k + 1 ≤ k + d + 1 := by omega
        simp [hsub, hsub', hne, hle, Nat.le_of_lt hgt]
  have h := hblocks q.blocks.toList 0 fun i x hx => by
    rw [Array.getElem?_toList] at hx
    rw [hp i x hx, Nat.zero_add]
  rw [labelledPhis, h, if_pos (Nat.zero_le _), Nat.sub_zero, Array.getElem?_toList]
  rfl

/-- A phi listed with a label comes from a block. -/
theorem lt_size_of_labelledPhis (hp : q.Indexed) {b : Label} {φ : Phi}
    (h : (b, φ) ∈ q.labelledPhis) : b < q.blocks.size := by
  obtain ⟨x, hx, hφ⟩ := List.mem_flatMap.1 h
  obtain ⟨c, hc⟩ := List.mem_iff_getElem?.1 hx
  rw [Array.getElem?_toList] at hc
  obtain ⟨_, _, heq⟩ := List.mem_map.1 hφ
  obtain ⟨rfl, -⟩ := Prod.mk.inj heq
  rw [hp c x hc]
  exact (Array.getElem?_eq_some_iff.1 hc).1

theorem label?_withoutPhis (b : Label) : q.withoutPhis.label? b = q.label? b := by
  rcases h : q.blocks[b]? with - | x <;> simp [label?, withoutPhis, h]

/-- Phis that were taken out can be put back. -/
theorem restorePhis_withoutPhis (hp : q.Indexed) :
    q.withoutPhis.restorePhis q.labelledPhis = .ok q := by
  have hfold : ∃ r, q.withoutPhis.restorePhis q.labelledPhis = .ok r ∧
      (r.vars = q.vars ∧ r.blocks.size = q.blocks.size) ∧ ∀ b, r.label? b = q.label? b ∧
        r.body b = q.body b ∧ r.phis b = phisFor q.labelledPhis b := by
    apply foldlM_ok_of_step fun past (r : Program) =>
      (r.vars = q.vars ∧ r.blocks.size = q.blocks.size) ∧ ∀ b, r.label? b = q.label? b ∧
        r.body b = q.body b ∧ r.phis b = phisFor past b
    · rintro past ⟨c, φ⟩ rest r hsplit ⟨⟨hvars, hsize⟩, hparts⟩
      have hmem : (c, φ) ∈ q.labelledPhis := by
        rw [hsplit]
        simp
      have hlt : c < r.blocks.size := hsize ▸ lt_size_of_labelledPhis hp hmem
      refine ⟨r.modifyBlock c (·.addPhi φ), if_pos hlt, ⟨hvars, ?_⟩, fun b => ?_⟩
      · rw [size_modifyBlock, hsize]
      · obtain ⟨hlabel, hbody, hphis⟩ := hparts b
        rw [label?_modifyBlock (f := (·.addPhi φ)) (fun _ => rfl),
          body_modifyBlock_eq (f := (·.addPhi φ)) (fun _ => rfl), phisFor_concat, ← hphis]
        exact ⟨hlabel, hbody, phis_modifyBlock (g := (· ++ [φ])) (fun _ => rfl) (.inl hlt) b⟩
    · exact ⟨⟨rfl, size_withoutPhis⟩, fun b =>
        ⟨label?_withoutPhis b, body_withoutPhis b, phis_withoutPhis b⟩⟩
  obtain ⟨r, hrun, ⟨hvars, hsize⟩, hparts⟩ := hfold
  rw [hrun]
  refine congrArg _ (ext_view hvars hsize (fun b => (hparts b).1) (fun b => ?_)
    fun b => (hparts b).2.1)
  rw [(hparts b).2.2, phisFor_labelledPhis hp]

/-! ### The audit of the result -/

/-- An audit looks at the blocks and at the number of variables only. -/
theorem audit_congr {p : Program} (hblocks : p.blocks = q.blocks)
    (hvars : p.vars.size = q.vars.size) (n : Nat) (colors : Colors) :
    p.audit n colors = q.audit n colors := by
  have hlive : p.liveness = q.liveness := by
    unfold liveness liveEquations summaries flow
    rw [hblocks, hvars]
  have hparams : p.paramVars n = q.paramVars n := by
    unfold paramVars
    rw [hvars]
  have hgraph : p.interference q.liveness n = q.interference q.liveness n := by
    unfold interference blockClashes entryClashes
    rw [hparams, hblocks, hvars]
  have hsurface : Audit.surface p n colors = Audit.surface q n colors := by
    unfold Audit.surface Audit.places Audit.defined
    rw [hparams, hblocks, hvars]
  simp only [audit, analyse, hsurface, hlive, hgraph, hvars]

/-- The audit of the registers in the table passes. -/
theorem Serves.audit (h : q.Serves n colors) (hq : q.WellFormed n) {p : Program}
    (hblocks : p.blocks = q.blocks) (hvars : p.vars.size = q.vars.size)
    (hregister : ∀ v, p.register? v = (colors[v]?).join) :
    (p.audit n p.registers.toArray).result = .ok () := by
  have hhome : Colors.home p.registers.toArray = colors.home := by
    funext v
    rw [Colors.home, join_registers, hregister]
    rfl
  rw [audit_congr hblocks hvars, audit_eq_ok hq, hhome]
  refine ⟨fun v hv => ?_, h.housed⟩
  rw [join_registers, hregister]
  exact h.all v hv

end Program

end ChordalAlloc
