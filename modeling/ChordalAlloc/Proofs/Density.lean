/-
ChordalAlloc/Proofs/Density.lean

The registers in use are numbered without gaps (`Program.allocate_dense`).

The colors known beforehand are those of the parameters, `0 .. n`, so below
each of them every number is in use (`Colors.Dense`).  Greedy coloring keeps
this: it takes the least number that the neighbours leave, so the numbers
below are those of neighbours (`Dense.colorOne`, `Dense.colorGreedily`).
Classes are numbered without gaps too, hence every color of a class is that of
a variable, and a set of numbers without gaps consists of the numbers below its
size (`mem_iff_lt_card`).
-/
import ChordalAlloc.Proofs.Statistics

namespace ChordalAlloc

open Program

/-! ### Colors without gaps -/

/-- Below a color every number is a color. -/
def Colors.Dense (colors : Colors) : Prop :=
  ∀ j c d : Nat, (colors[j]?).join = some c → d < c → ∃ i : Nat, (colors[i]?).join = some d

theorem Colors.Dense.colorOne {g : Graph} {colors : Colors} (h : colors.Dense) (k : Nat) :
    Colors.Dense (g.colorOne colors k) := by
  unfold Graph.colorOne
  split
  · exact h
  · next hnone =>
    -- no color is lost, since the class has none
    have keep : ∀ {i d : Nat}, (colors[i]?).join = some d →
        ((colors.setIfInBounds k (some (leastFree (g.takenColors colors k))))[i]?).join
          = some d := by
      intro i d hi
      rw [join_setIfInBounds, if_neg, hi]
      rintro ⟨rfl, -⟩
      rw [hi] at hnone
      exact hnone rfl
    intro j c d hj hd
    rw [join_setIfInBounds] at hj
    split at hj
    · cases hj
      obtain ⟨i, -, hi⟩ := Graph.mem_takenColors.1 (mem_of_lt_leastFree hd)
      exact ⟨i, keep hi⟩
    · obtain ⟨i, hi⟩ := h j c d hj hd
      exact ⟨i, keep hi⟩

theorem Colors.Dense.foldl {g : Graph} {colors : Colors} (h : colors.Dense) (ks : List Nat) :
    Colors.Dense (ks.foldl g.colorOne colors) := by
  induction ks generalizing colors with
  | nil => exact h
  | cons k ks ih => exact ih (h.colorOne k)

/-- Greedy coloring leaves no gaps where there were none. -/
theorem Colors.Dense.colorGreedily {g : Graph} {s : Seeds} (h : Colors.Dense s.colors) :
    Colors.Dense (g.colorGreedily s) := h.foldl _

/-- Numbers without gaps are those below their number. -/
theorem mem_iff_lt_card {s : Finset Nat} (h : ∀ c ∈ s, ∀ d, d < c → d ∈ s) (r : Nat) :
    r ∈ s ↔ r < s.card := by
  constructor
  · intro hr
    have hsub : Finset.range (r + 1) ⊆ s := by
      intro d hd
      rcases Nat.lt_succ_iff_lt_or_eq.1 (Finset.mem_range.1 hd) with hlt | rfl
      · exact h r hr d hlt
      · exact hr
    have hcard := Finset.card_le_card hsub
    rwa [Finset.card_range] at hcard
  · intro hr
    by_contra hnot
    have hsub : s ⊆ Finset.range r := by
      intro c hc
      rw [Finset.mem_range]
      rcases Nat.lt_trichotomy c r with hlt | rfl | hgt
      · exact hlt
      · exact absurd hc hnot
      · exact absurd (h c hc r hgt) hnot
    have hcard := Finset.card_le_card hsub
    rw [Finset.card_range] at hcard
    exact Nat.not_lt_of_le hcard hr

/-! ### Colors of variables -/

section Used

variable {g : Graph} {classes : Array Nat} {colors : Colors} {plan : ColorPlan} {count : Nat}

/-- Colors of variables without gaps give such colors of classes. -/
theorem ColorPlan.Suits.dense_seeds (h : plan.Suits g classes colors)
    (hclasses : classes.size = g.size) (hcolors : colors.size = g.size) (hdense : colors.Dense) :
    Colors.Dense plan.seeds.colors := by
  intro k c d hk hd
  obtain ⟨v, hv, -⟩ := (h.seeds k c).1 hk
  obtain ⟨u, hu⟩ := hdense v c d hv hd
  obtain ⟨j, hj⟩ := Graph.exists_class hclasses (hcolors ▸ lt_size_of_join hu)
  exact ⟨j, (h.seeds j d).2 ⟨u, hu, hj⟩⟩

/-- **The colors in use are those below their number.** -/
theorem Graph.colorClasses_dense {c : Coloring} (hg : g.Sound) (hclasses : classes.size = g.size)
    (hcolors : colors.size = g.size) (hpacked : Packed classes count) (hdense : colors.Dense)
    (hok : g.colorClasses classes colors = .ok c) (r : Nat) :
    (∃ v : Nat, (c.colors[v]?).join = some r) ↔ r < c.used := by
  obtain ⟨plan, hplan, -, rfl⟩ := colorClasses_eq_ok.1 hok
  have hsuits := suits_of_plan hg hplan
  have hpainted : Colors.Dense plan.painted :=
    (hsuits.dense_seeds hclasses hcolors hdense).colorGreedily
  have hmem : ∀ x, x ∈ (plan.painted.toList.filterMap id).toFinset ↔
      ∃ k : Nat, (plan.painted[k]?).join = some x := fun x => by
    rw [List.mem_toFinset, mem_filterMap_id]
  rw [ColorPlan.used_outcome, ← mem_iff_lt_card, hmem]
  · exact (hsuits.exists_painted_iff hclasses hcolors hpacked r).symm
  · intro x hx d hd
    obtain ⟨k, hk⟩ := (hmem x).1 hx
    exact (hmem d).2 (hpainted k x d hk hd)

end Used

/-! ### Registers -/

namespace Program

theorem dense_pinnedColors (q : Program) (n : Nat) : Colors.Dense (q.pinnedColors n) := by
  intro j c d hj hd
  have hlt := lt_size_of_join hj
  rw [size_pinnedColors] at hlt
  obtain ⟨rfl, hn⟩ := eq_of_pinnedColors hj
  refine ⟨d, ?_⟩
  rw [join_pinnedColors, if_pos ⟨Nat.lt_trans hd hlt, Nat.le_trans (Nat.le_of_lt hd) hn⟩]

/-- A table with a register for every variable shows these. -/
theorem registers_setRegisters {q : Program} {registers : List Nat}
    (hlength : registers.length = q.vars.size) :
    (q.setRegisters registers).registers = registers.map some := by
  apply List.ext_getElem?
  intro v
  rw [Program.registers, List.getElem?_map, Array.getElem?_toList, setRegisters,
    Array.getElem?_mapIdx, List.getElem?_map]
  rcases Nat.lt_or_ge v q.vars.size with hlt | hge
  · rw [Array.getElem?_eq_getElem hlt, List.getElem?_eq_getElem (hlength.symm ▸ hlt)]
    rfl
  · rw [Array.getElem?_eq_none hge, List.getElem?_eq_none (hlength.symm ▸ hge)]
    rfl

variable {p : Program} {o : Options} {n : Nat} {a : Allocation} {l : Lowering} {m : Merging}
  {c : Coloring}

/-- What a phi sets is in the table. -/
theorem receiver_lt_of_check (hcheck : p.check n = .ok ()) {b : Label} {v : Var}
    (hv : v ∈ p.receivers b) : v < p.vars.size := by
  obtain ⟨-, -, -, -, hlt, -⟩ := check_eq_ok hcheck
  obtain ⟨k, hk⟩ := List.mem_iff_getElem?.1 hv
  exact hlt v (mem_definitions_iff.2 ⟨.phi b k, defines_phi_iff.2 hk⟩)

namespace Stages

variable (h : Stages p o n a l m c)

include h

theorem vars_eq : m.program.vars = l.program.vars := by
  obtain ⟨-, es, hes, -⟩ := h.removed_spec
  exact hes.vars

theorem vars_le : p.vars.size ≤ l.program.vars.size := by
  rw [h.account.vars, Nat.add_assoc]
  exact Nat.le_add_right _ _

theorem size_classes : m.classes.size = l.program.vars.size :=
  h.removed_spec.1.size.trans l.program.ties_phiClasses.size

theorem size_numbering : m.classes.numbering.1.toArray.size =
    (l.program.interference l.program.liveness n).size := by
  rw [List.size_toArray, (Partition.numbering_spec h.removed_spec.1.forest).1, h.size_classes,
    size_interference]

theorem size_pinned : (m.program.pinnedColors n).size =
    (l.program.interference l.program.liveness n).size := by
  rw [size_pinnedColors, h.vars_eq, size_interference]

theorem properlyColored : (l.program.interference l.program.liveness n).ProperlyColored
    m.classes.numbering.1.toArray (m.program.pinnedColors n) c.colors :=
  Graph.properlyColored_of_colorClasses (sound_interference _ _) h.size_numbering h.size_pinned
    h.color

/-- The registers are the colors. -/
theorem registers_spec : a.registers.length = l.program.vars.size ∧
    ∀ v : Var, (c.colors[v]?).join = a.registers[v]? := by
  have hcolored := h.properlyColored
  have hsize : (l.program.interference l.program.liveness n).size = m.program.vars.size := by
    rw [size_interference, h.vars_eq]
  obtain ⟨registers, hrun, hlength, hread⟩ :=
    assigned_spec (hcolored.size.trans hsize) fun v hv => hcolored.all v (hsize ▸ hv)
  cases h.assigned.symm.trans hrun
  exact ⟨h.vars_eq ▸ hlength, hread⟩

/-- Members of a class share their register. -/
theorem exists_register {u v : Var} (hu : u < l.program.vars.size) (hv : v < l.program.vars.size)
    (hroot : m.classes.root u = m.classes.root v) :
    ∃ r, a.registers[u]? = some r ∧ a.registers[v]? = some r := by
  obtain ⟨hlength, hread⟩ := h.registers_spec
  have hsize := size_interference l.program n
  have hnumber : m.classes.numbering.1.toArray[u]? = m.classes.numbering.1.toArray[v]? := by
    rw [List.getElem?_toArray, List.getElem?_toArray,
      (Partition.numbering_spec h.removed_spec.1.forest).2 u v (h.size_classes.symm ▸ hu)
        (h.size_classes.symm ▸ hv)]
    exact hroot
  have hshared := h.properlyColored.shared u v (hsize.symm ▸ hu) (hsize.symm ▸ hv) hnumber
  rw [hread, hread] at hshared
  have hr := List.getElem?_eq_getElem (hlength.symm ▸ hu)
  exact ⟨_, hr, hshared ▸ hr⟩

/-- What a phi sets is in one class with what it read after lowering. -/
theorem root_receiver {s : Site} {y : PhiArg} (hy : l.program.argAt? s = some y) {φ : Phi}
    (hφ : (m.program.phis s.block)[s.phi]? = some φ) :
    m.classes.root φ.dst = m.classes.root y.value ∧ φ.dst < l.program.vars.size := by
  have hl := h.account
  obtain ⟨hgrows, es, hes, -⟩ := h.removed_spec
  obtain ⟨ψ, hψ, hyψ⟩ := phi_of_site hy
  -- lowering and merging change what phis read, not what they set
  have hdst : ψ.dst = φ.dst := by
    have heq := congrArg (·[s.phi]?) (hes.receivers s.block)
    simp only [receivers, List.getElem?_map, hφ, hψ, Option.map_some, Option.some.injEq] at heq
    exact heq.symm
  have hmem := List.mem_of_getElem? hψ
  have hlt : ψ.dst < l.program.vars.size := by
    have hreceiver : ψ.dst ∈ l.program.receivers s.block := List.mem_map_of_mem hmem
    rw [hl.added.receivers] at hreceiver
    exact Nat.lt_of_lt_of_le (receiver_lt_of_check h.check hreceiver) h.vars_le
  have htied := l.program.ties_phiClasses.tied ψ (mem_flatMap_phis.2 ⟨_, hmem⟩) y.value
    (List.mem_map_of_mem (List.mem_of_getElem? hyψ)) hlt (hl.args s y hy)
  rw [← hdst]
  exact ⟨hgrows.keep _ _ htied, hlt⟩

/-- A phi and its operands share a register. -/
theorem exists_register_of_phi {x : Label × Phi} (hx : x ∈ a.phis) {y : PhiArg}
    (hy : y ∈ x.2.args) :
    ∃ r, a.registers[x.2.dst]? = some r ∧ a.registers[y.value]? = some r := by
  have hl := h.account
  obtain ⟨hgrows, es, hes, -, hsub, hjoined, -⟩ := h.removed_spec
  rw [h.phis, labelledPhis, List.mem_flatMap] at hx
  obtain ⟨block, hblock, hx⟩ := hx
  obtain ⟨φ, hφ, rfl⟩ := List.mem_map.1 hx
  obtain ⟨b, hφ⟩ := mem_flatMap_phis.1 (List.mem_flatMap.2 ⟨block, hblock, hφ⟩)
  obtain ⟨s, ⟨rfl, hs⟩, hy⟩ := exists_site hφ hy
  rcases hes.args s y hy with ⟨z, hz, hvalue⟩ | ⟨e, he, rfl, hvalue⟩
  · obtain ⟨hroot, hlt⟩ := h.root_receiver hz hs
    rw [← hvalue]
    exact h.exists_register hlt (hl.args s z hz) hroot
  · -- the copy that the phi read is gone, but it was within a class
    obtain ⟨-, hlt', hz⟩ := hl.records e (hsub.subset he)
    obtain ⟨hroot, hlt⟩ := h.root_receiver hz hs
    rw [← hvalue]
    exact h.exists_register hlt hlt' (hroot.trans (hjoined e he).symm)

/-- The registers in use are those below their number. -/
theorem mem_registers (r : Nat) : r ∈ a.registers ↔ r < a.registerCount := by
  have hpacked : Packed m.classes.numbering.1.toArray m.classes.numbering.2 := fun k => by
    rw [List.mem_toArray]
    exact Partition.mem_numbering h.removed_spec.1.forest
  rw [h.registerCount, ← Graph.colorClasses_dense (sound_interference _ _) h.size_numbering
    h.size_pinned hpacked (dense_pinnedColors _ _) h.color, List.mem_iff_getElem?]
  simp only [h.registers_spec.2]

end Stages

/-- **Registers are numbered without gaps, and parameters have their own.**  Every variable of the
output has the register that is reported for it; a parameter has the register of its number, a phi
taken out shares its register with all its operands, and the registers in use are exactly those
below their number. -/
theorem allocate_dense (p : Program) (o : Options) (n : Nat) (a : Allocation)
    (ha : (p.allocate o n).result = .ok a) :
    a.registers.length = (p.allocate o n).program.vars.size ∧
    (p.allocate o n).program.registers = a.registers.map some ∧
    (∀ i, i ≤ n → a.registers[i]? = some i) ∧
    (∀ x ∈ a.phis, ∀ y ∈ x.2.args,
      ∃ r, a.registers[x.2.dst]? = some r ∧ a.registers[y.value]? = some r) ∧
    ∀ r, r ∈ a.registers ↔ r < a.registerCount := by
  obtain ⟨l, m, c, h⟩ := exists_stages ha
  obtain ⟨hlength, hread⟩ := h.registers_spec
  refine ⟨?_, ?_, fun i hi => ?_, fun x hx y => h.exists_register_of_phi hx, h.mem_registers⟩
  · rw [hlength, ← h.vars_eq, h.program]
    exact (size_setRegisters _).symm
  · rw [h.program]
    exact registers_setRegisters (h.vars_eq ▸ hlength)
  · obtain ⟨-, hparams, -⟩ := check_eq_ok h.check
    have hlt : i < m.program.vars.size :=
      h.vars_eq ▸ Nat.lt_of_le_of_lt hi (Nat.lt_of_lt_of_le hparams h.vars_le)
    rw [← hread]
    refine h.properlyColored.kept i i ?_
    rw [join_pinnedColors, if_pos ⟨hlt, hi⟩]

theorem allocate_dense_swapLoop : ∃ a, (swapLoop.allocate {} 0).result = .ok a ∧
    a.registers[0]? = some 0 ∧ (∀ r, r ∈ a.registers ↔ r < a.registerCount) ∧
    ∀ x ∈ a.phis, ∀ y ∈ x.2.args,
      ∃ r, a.registers[x.2.dst]? = some r ∧ a.registers[y.value]? = some r := by
  obtain ⟨a, out, q, -, hrun⟩ := allocate_ok indexed_swapLoop check_swapLoop true
  have ha := (hrun {} rfl).1
  obtain ⟨-, -, hparams, hphis, hdense⟩ := swapLoop.allocate_dense {} 0 a ha
  exact ⟨a, ha, hparams 0 (Nat.le_refl 0), hdense, hphis⟩

end Program

end ChordalAlloc
