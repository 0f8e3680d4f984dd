/-
ChordalAlloc/Proofs/Audit.lean

The audit of an assignment of registers is exact and can be relied on.

`audit_eq_ok` says what a passing audit of a well-formed program means: every
variable has a register, and the registers are places that serve
(`Program.Housed`).  Whatever is looked for on the way besides is there in a
well-formed program.  So an assignment that passes, whoever made it, may be
used to run the program without its phis (`audit_sound`), and an assignment
that serves is never turned down.
-/
import ChordalAlloc.Proofs.Coloring
import ChordalAlloc.Proofs.Registers

namespace ChordalAlloc

namespace Audit

variable {p : Program} {n : Nat} {colors : Colors}

theorem hasColor_eq_ok {v : Var} :
    hasColor colors v = .ok () ↔ (colors[v]?).join.isSome = true := by
  rw [hasColor, ite_error_eq_ok, and_iff_left rfl]

theorem isPinned_eq_ok {v : Var} : isPinned colors v = .ok () ↔ (colors[v]?).join = some v := by
  unfold isPinned
  rcases (colors[v]?).join with - | c
  · constructor <;> rintro ⟨⟩
  · rw [ite_error_eq_ok, and_iff_left rfl, Option.some.injEq]

theorem phi_eq_ok {b : Block} {φ : Phi} :
    phi colors b φ = .ok () ↔ ∀ v ∈ φ.reads, (colors[v]?).join = (colors[φ.dst]?).join := by
  rw [phi, forM_eq_ok]
  simp only [ite_error_eq_ok, and_true]

/-- The places are checked first; a table of colors that is too short fails at its end. -/
theorem places_eq_ok (hn : n < p.vars.size) :
    places p n colors = .ok () ↔
      (∀ v, v < p.vars.size → (colors[v]?).join.isSome = true) ∧
        ∀ v, v ≤ n → (colors[v]?).join = some v := by
  have hsize : ¬ (p.vars.size ≤ n ∧ Space.lastIndex ≤ n) := fun h => absurd h.1 (Nat.not_le.2 hn)
  have hparams : ∀ v, v ∈ p.paramVars n ↔ v ≤ n := by
    intro v
    rw [Program.paramVars, List.mem_range, Nat.lt_min, Nat.lt_succ_iff]
    exact and_iff_left_of_imp fun hv => Nat.lt_of_le_of_lt hv hn
  have hall : (List.range p.vars.size).forM (hasColor colors) = .ok () ↔
      ∀ v, v < p.vars.size → (colors[v]?).join.isSome = true := by
    simp only [forM_eq_ok, List.mem_range, hasColor_eq_ok]
  simp only [places, ite_throw_bind_eq_ok, Except.bind_eq_ok, forM_eq_ok, isPinned_eq_ok, hparams]
  constructor
  · rintro ⟨-, ⟨⟩, hcolors, -, hpinned⟩
    exact ⟨hall.1 hcolors, hpinned⟩
  · rintro ⟨hcolors, hpinned⟩
    refine ⟨?_, (), hall.2 hcolors, hsize, hpinned⟩
    intro hshort
    have hnone : colors[colors.size]? = none := Array.getElem?_eq_none (Nat.le_refl _)
    have hlast := hcolors colors.size hshort
    rw [hnone] at hlast
    cases hlast

/-- Every definition of a well-formed program is known to the audit. -/
theorem contains_defined (h : p.WellFormed n) {v : Var} (hv : ∃ d, p.Defines n d v) :
    (defined p n).contains v = true := by
  have hlt : v < p.vars.size := by
    obtain ⟨d, hd⟩ := hv
    exact h.defines_lt d v hd
  rw [defined, IndexSet.contains_ofList, decide_eq_true hlt, Bool.and_true, decide_eq_true_eq]
  have hdef := Program.mem_definitions_iff.2 hv
  rw [Program.definitions, List.mem_append, List.mem_range] at hdef
  rcases hdef with hparam | hblock
  · apply List.mem_append_left
    rw [Program.paramVars, List.mem_range, Nat.lt_min]
    exact ⟨hparam, hlt⟩
  · apply List.mem_append_right
    obtain ⟨b, hb, hmem⟩ := List.mem_flatMap.1 hblock
    refine List.mem_flatMap.2 ⟨b, hb, ?_⟩
    simp only [Block.definitions, Block.writes, List.mem_append, List.mem_filterMap] at hmem ⊢
    exact hmem.symm

theorem reads_defined (h : p.WellFormed n) :
    p.blocks.toList.forM (Check.reads (defined p n)) = .ok () := by
  rw [forM_eq_ok]
  intro block hblock
  obtain ⟨b, hb⟩ := List.mem_iff_getElem?.1 hblock
  rw [Array.getElem?_toList] at hb
  rw [Check.reads_eq_ok]
  intro v hv
  apply contains_defined h
  apply h.defined
  rcases List.mem_append.1 hv with hv | hv
  · obtain ⟨φ, hφ, hv⟩ := List.mem_flatMap.1 hv
    exact .inr ⟨b, φ, by rw [Program.phis_of hb]; exact hφ, hv⟩
  · obtain ⟨i, hi, hv⟩ := List.mem_flatMap.1 hv
    exact .inl ⟨b, i, by rw [Program.body_of hb]; exact hi, hv⟩

end Audit

namespace Program

variable {p : Program} {n : Nat} {colors : Colors}

theorem home_of_join {v : Var} {c : Nat} (h : (colors[v]?).join = some c) : colors.home v = c := by
  rw [Colors.home, h, Option.getD_some]

theorem join_eq_home {v : Var} (h : (colors[v]?).join.isSome = true) :
    (colors[v]?).join = some (colors.home v) := by
  obtain ⟨c, hc⟩ := Option.isSome_iff_exists.1 h
  rw [hc, home_of_join hc]

theorem surface_eq_ok (h : p.WellFormed n) :
    Audit.surface p n colors = .ok () ↔ Audit.places p n colors = .ok () ∧
      ∀ b φ a, φ ∈ p.phis b → a ∈ φ.args →
        (colors[a.value]?).join = (colors[φ.dst]?).join := by
  simp only [Audit.surface, Except.bind_eq_ok, forM_eq_ok, Audit.phi_eq_ok]
  constructor
  · rintro ⟨⟨⟩, hplaces, ⟨⟩, -, hphis⟩
    refine ⟨hplaces, fun b φ a hφ ha => ?_⟩
    obtain ⟨block, hb⟩ := exists_block (lt_size_of_phis hφ)
    rw [phis_of hb] at hφ
    exact hphis block (mem_blocks hb) φ hφ a.value
      (List.mem_map.2 ⟨a, ha, rfl⟩)
  · rintro ⟨hplaces, hphis⟩
    refine ⟨(), hplaces, (), Audit.reads_defined h, ?_⟩
    intro block hblock φ hφ v hv
    obtain ⟨b, hb⟩ := List.mem_iff_getElem?.1 hblock
    rw [Array.getElem?_toList] at hb
    rw [← phis_of hb] at hφ
    obtain ⟨a, ha, rfl⟩ := List.mem_map.1 hv
    exact hphis b φ a hφ ha

/-- **An audit passes exactly the registers that serve.** -/
theorem audit_eq_ok (h : p.WellFormed n) :
    (p.audit n colors).result = .ok () ↔
      (∀ v, v < p.vars.size → (colors[v]?).join.isSome = true) ∧ p.Housed n colors.home := by
  have hsplit : (p.audit n colors).result = .ok () ↔
      Audit.surface p n colors = .ok () ∧
        (p.interference p.liveness n).checkColors colors = .ok () := by
    unfold audit
    rcases Audit.surface p n colors with e | ⟨⟩
    · constructor
      · rintro ⟨⟩
      · rintro ⟨⟨⟩, -⟩
    · exact ⟨fun h => ⟨rfl, h⟩, fun h => h.2⟩
  rw [hsplit, surface_eq_ok h, Audit.places_eq_ok h.params, Graph.checkColors_eq_ok]
  constructor
  · rintro ⟨⟨⟨hall, hpinned⟩, hphis⟩, hedges⟩
    refine ⟨hall, fun v hv => home_of_join (hpinned v hv), fun b φ a hφ ha => ?_, ?_⟩
    · rw [Colors.home, Colors.home, hphis b φ a hφ ha]
    · intro u v hne hclash heq
      obtain ⟨hu, hv⟩ := h.clash_lt hclash
      have hcu := join_eq_home (hall u hu)
      have hcv := join_eq_home (hall v hv)
      -- the graph keeps an edge once, from the lower end
      rcases Nat.lt_or_gt_of_ne hne with hlt | hlt
      · have hadj := (adjacent_interference h.indexed h.entry u v).2 ⟨hne, hu, hv, .inl hclash⟩
        exact hedges u v _ hadj hlt hcu (heq ▸ hcv)
      · have hadj := (adjacent_interference h.indexed h.entry v u).2
          ⟨hne.symm, hv, hu, .inr hclash⟩
        exact hedges v u _ hadj hlt hcv (heq ▸ hcu)
  · rintro ⟨hall, hh⟩
    refine ⟨⟨⟨hall, fun v hv => ?_⟩, fun b φ a hφ ha => ?_⟩, ?_⟩
    · rw [join_eq_home (hall v (Nat.lt_of_le_of_lt hv h.params)), hh.pinned v hv]
    · rw [join_eq_home (hall _ (h.arg_lt hφ ha)), join_eq_home (hall _ (h.dst_lt hφ)),
        hh.phis b φ a hφ ha]
    · intro u v c hadj _ hcu hcv
      obtain ⟨hne, -, -, hclash⟩ := (adjacent_interference h.indexed h.entry u v).1 hadj
      have heq : colors.home u = colors.home v := by rw [home_of_join hcu, home_of_join hcv]
      rcases hclash with hclash | hclash
      · exact hh.clash u v hne hclash heq
      · exact hh.clash v u hne.symm hclash heq.symm

/-- **Registers that pass the audit can be relied on.**  With every variable in its register and
all phis left out, a checked program does what it does on its variables with its phis. -/
theorem audit_sound (p : Program) (n : Nat) (colors : Colors) (hp : p.Indexed)
    (hcheck : p.check n = .ok ()) (haudit : (p.audit n colors).result = .ok ()) :
    (∀ v, v < p.vars.size → colors[v]? = some (some (colors.home v))) ∧
      ∀ (w : World) (args : Fin (n + 1) → Int64),
        SameBehavior (p.run w id args) (p.withoutPhis.run w colors.home args) := by
  have h := wellFormed_of_check hp hcheck
  obtain ⟨hall, hh⟩ := (audit_eq_ok h).1 haudit
  refine ⟨fun v hv => ?_, fun w args => hh.sameBehavior h w args⟩
  exact Option.join_eq_some_iff.1 (join_eq_home (hall v hv))

/-- Count a number up by the receiver until it is zero: a loop whose head has a phi. -/
def countUp : Program where
  vars := #[{ id := 0 }, { id := 1 }, { id := 2 }, { id := 3 }]
  blocks := #[
    { label := 0, body := [.const 1 (-6), .jump 1] },
    { label := 1, phis := [⟨2, [⟨0, 1⟩, ⟨1, 3⟩]⟩],
      body := [.binary .add 3 2 0, .branch 3 1 2] },
    { label := 2, body := [.ret (some 3)] }]

theorem indexed_countUp : countUp.Indexed := by
  intro b block h
  rcases b with - | - | - | b <;> cases h <;> rfl

/-- Only the receiver interferes with anything, so all else may be in one register. -/
theorem audit_countUp : (countUp.audit 0 #[some 0, some 1, some 1, some 1]).result = .ok () := by
  have hsurface : Audit.surface countUp 0 #[some 0, some 1, some 1, some 1] = .ok () := by
    decide +kernel
  have hedges : (countUp.analyse 0 false).graph.edges = [(0, 1), (0, 2), (0, 3)] := by cbv
  rw [audit, hsurface]
  show (countUp.analyse 0 false).graph.checkColors _ = _
  rw [Graph.checkColors, hedges]
  rfl

theorem audit_sound_countUp :
    countUp.check 0 = .ok () ∧
      (countUp.audit 0 #[some 0, some 1, some 1, some 1]).result = .ok () ∧
      ∀ (w : World) (args : Fin 1 → Int64), SameBehavior (countUp.run w id args)
        (countUp.withoutPhis.run w (Colors.home #[some 0, some 1, some 1, some 1]) args) := by
  have hcheck : countUp.check 0 = .ok () := by decide +kernel
  exact ⟨hcheck, audit_countUp, (audit_sound _ 0 _ indexed_countUp hcheck audit_countUp).2⟩

end Program

end ChordalAlloc
