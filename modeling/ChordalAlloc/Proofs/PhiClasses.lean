/-
ChordalAlloc/Proofs/PhiClasses.lean

The classes that phis tie together.

A class contains what the phis ask for and no more: the variable a phi sets
and those it reads are in one class, and whatever is the same for them is
the same for all members of a class (`Program.phiClasses_spec`).

After lowering a class is the variable of a phi together with the targets of
the copies for that phi (`Lowered.root_eq_receiver_iff`).  A target is live
only behind its copy, where no variable of a phi of the next block is, so no
two members of a class clash (`Lowered.apart`).
-/
import ChordalAlloc.PhiClasses
import ChordalAlloc.Proofs.DroppedCopy
import ChordalAlloc.Proofs.Lowering
import ChordalAlloc.Proofs.Partition

namespace ChordalAlloc

namespace Gathering

variable {g : Gathering} {φ : Phi}

theorem grows_join (h : g.classes.Forest) (u v : Var) :
    g.classes.Grows (g.join u v).classes ∧ (u < g.classes.size → v < g.classes.size →
      (g.join u v).classes.root u = (g.join u v).classes.root v) := by
  unfold join
  split
  · next hc =>
    rw [Bool.and_eq_true, Bool.and_eq_true, decide_eq_true_eq, decide_eq_true_eq] at hc
    have hjoined := h.joined_union hc.1.1 hc.1.2
    exact ⟨hjoined.grows, fun _ _ => hjoined.root_eq rfl rfl⟩
  · next hc =>
    refine ⟨.refl h, fun hu hv => ?_⟩
    simp only [hu, hv, decide_true, Bool.true_and, Bool.not_eq_true', Bool.not_eq_false,
      Partition.same, beq_iff_eq] at hc
    exact hc

theorem labels_join {α : Type} {f : Var → α} (hf : Partition.Labels f g.classes)
    (h : g.classes.Forest) {u v : Var} (huv : f u = f v) :
    Partition.Labels f (g.join u v).classes := by
  unfold join
  split
  · next hc =>
    rw [Bool.and_eq_true, Bool.and_eq_true, decide_eq_true_eq, decide_eq_true_eq] at hc
    exact hf.union h hc.1.1 hc.1.2 huv
  · exact hf

/-- Joining a variable with several others, one after the other. -/
theorem foldl_join (h : g.classes.Forest) (d : Var) (vs : List Var) :
    g.classes.Grows (vs.foldl (fun g v => g.join d v) g).classes ∧
      (∀ v ∈ vs, d < g.classes.size → v < g.classes.size →
        (vs.foldl (fun g v => g.join d v) g).classes.root d
          = (vs.foldl (fun g v => g.join d v) g).classes.root v) ∧
      ∀ f : Var → Var, Partition.Labels f g.classes → (∀ v ∈ vs, f d = f v) →
        Partition.Labels f (vs.foldl (fun g v => g.join d v) g).classes := by
  induction vs generalizing g with
  | nil => exact ⟨.refl h, fun v hv => absurd hv List.not_mem_nil, fun f hf _ => hf⟩
  | cons v vs ih =>
    obtain ⟨hgrows, hroot⟩ := grows_join h d v
    obtain ⟨hgrows', hroots, hlabels⟩ := ih hgrows.forest
    refine ⟨hgrows.trans hgrows', fun x hx hd hlt => ?_, fun f hf hvs => ?_⟩
    · rcases List.mem_cons.1 hx with rfl | hx
      · exact hgrows'.keep d x (hroot hd hlt)
      · rw [← hgrows.size] at hd hlt
        exact hroots x hx hd hlt
    · rw [List.forall_mem_cons] at hvs
      exact hlabels f (labels_join hf h hvs.1) hvs.2

/-- The classes of `g` are those that the given phis tie together. -/
structure Ties (count : Nat) (φs : List Phi) (g : Gathering) : Prop where
  forest : g.classes.Forest
  size : g.classes.size = count
  tied : ∀ φ ∈ φs, ∀ v ∈ φ.reads, φ.dst < count → v < count →
    g.classes.root φ.dst = g.classes.root v
  least : ∀ f : Var → Var, (∀ φ ∈ φs, ∀ v ∈ φ.reads, f φ.dst = f v) → Partition.Labels f g.classes

theorem Ties.joinPhi {count : Nat} {φs : List Phi} (h : g.Ties count φs) (φ : Phi) :
    (g.joinPhi φ).Ties count (φs ++ [φ]) := by
  obtain ⟨hgrows, hroots, hlabels⟩ := foldl_join h.forest φ.dst φ.reads
  refine ⟨hgrows.forest, hgrows.size.trans h.size, fun ψ hψ v hv hd hlt => ?_, fun f hf => ?_⟩
  · rcases List.mem_append.1 hψ with hψ | hψ
    · exact hgrows.keep _ _ (h.tied ψ hψ v hv hd hlt)
    · rw [List.mem_singleton] at hψ
      subst hψ
      rw [← h.size] at hd hlt
      exact hroots v hv hd hlt
  · apply hlabels f
    · exact h.least f fun ψ hψ => hf ψ (List.mem_append_left _ hψ)
    · exact hf φ (List.mem_append_right _ List.mem_cons_self)

theorem Ties.foldl {count : Nat} {φs : List Phi} (h : g.Ties count φs) (ψs : List Phi) :
    (ψs.foldl Gathering.joinPhi g).Ties count (φs ++ ψs) := by
  induction ψs generalizing g φs with
  | nil =>
    rw [List.append_nil]
    exact h
  | cons ψ ψs ih =>
    have hnext := ih (h.joinPhi ψ)
    rw [List.append_assoc] at hnext
    exact hnext

end Gathering

namespace Program

variable {p q : Program} {n : Nat} {cs : List EdgeCopy} {c : EdgeCopy}

theorem mem_flatMap_phis {φ : Phi} :
    φ ∈ p.blocks.toList.flatMap (·.phis) ↔ ∃ b, φ ∈ p.phis b := by
  rw [List.mem_flatMap]
  constructor
  · rintro ⟨block, hblock, hφ⟩
    obtain ⟨b, hb⟩ := exists_position hblock
    exact ⟨b, by rwa [phis_of hb]⟩
  · rintro ⟨b, hφ⟩
    obtain ⟨block, hb⟩ := exists_block (lt_size_of_phis hφ)
    rw [phis_of hb] at hφ
    exact ⟨block, mem_blocks hb, hφ⟩

theorem ties_phiClasses (p : Program) :
    p.phiClasses.Ties p.vars.size (p.blocks.toList.flatMap (·.phis)) := by
  obtain ⟨hforest, hsize, hroot⟩ := Partition.discrete_spec p.vars.size
  have hstart : ({ classes := .discrete p.vars.size } : Gathering).Ties p.vars.size [] :=
    ⟨hforest, hsize, fun _ hφ => absurd hφ List.not_mem_nil, fun f _ i => by rw [hroot]⟩
  exact hstart.foldl (p.blocks.toList.flatMap (·.phis))

/-- Phis put what they set and what they read into one class, and nothing else is. -/
theorem phiClasses_spec (h : p.WellFormed n) : p.phiClasses.classes.Forest ∧
    p.phiClasses.classes.size = p.vars.size ∧
    (∀ b φ a, φ ∈ p.phis b → a ∈ φ.args →
      p.phiClasses.classes.root φ.dst = p.phiClasses.classes.root a.value) ∧
    ∀ f : Var → Var, (∀ b φ a, φ ∈ p.phis b → a ∈ φ.args → f φ.dst = f a.value) →
      Partition.Labels f p.phiClasses.classes := by
  have hties := p.ties_phiClasses
  refine ⟨hties.forest, hties.size, fun b φ a hφ ha => ?_, fun f hf => hties.least f ?_⟩
  · have hread : a.value ∈ φ.reads := List.mem_map.2 ⟨a, ha, rfl⟩
    exact hties.tied φ (mem_flatMap_phis.2 ⟨b, hφ⟩) a.value hread (h.dst_lt hφ) (h.arg_lt hφ ha)
  · intro φ hφ v hv
    obtain ⟨b, hb⟩ := mem_flatMap_phis.1 hφ
    obtain ⟨a, ha, rfl⟩ := List.mem_map.1 hv
    exact hf b φ a hb ha

/-! ### Classes after lowering -/

theorem Recorded.notMem_receivers (h : q.Recorded cs c) (hq : q.WellFormed n) (b : Label) :
    c.dst ∉ q.receivers b := by
  intro hmem
  obtain ⟨k, hk⟩ := List.mem_iff_getElem?.1 hmem
  have hsite := hq.once (.phi b k) (.instr c.location c.index) c.dst (defines_phi_iff.2 hk)
    ⟨_, h.instr, rfl⟩
  cases hsite

theorem Recorded.not_param (h : q.Recorded cs c) (hq : q.WellFormed n) : ¬ c.dst ≤ n := by
  intro hle
  have hsite := hq.once .entry (.instr c.location c.index) c.dst hle ⟨_, h.instr, rfl⟩
  cases hsite

/-- The target of a copy is live only between the copy and the end of its block. -/
theorem Recorded.live_dst (h : q.Recorded cs c) {b : Label} {k : Nat} {v : Var}
    (hv : q.Live b k v) (hc : v = c.dst) : b = c.location ∧ c.index < k := by
  induction hv with
  | @read b k i v hi hv =>
    subst hc
    exact absurd hv (h.instr_reads b i (List.mem_of_getElem? hi))
  | @pass b k i v hi hdst _ ih =>
    obtain ⟨hb, hlt⟩ := ih hc
    refine ⟨hb, Nat.lt_of_le_of_ne (Nat.le_of_lt_succ hlt) ?_⟩
    intro heq
    rw [hb, ← heq, h.instr] at hi
    cases hi
    exact hdst (congrArg some hc.symm)
  | cross _ _ _ _ ih => exact absurd (ih hc).2 (Nat.not_lt_zero _)
  | @arrive b s k φ v hk _ hφ ha =>
    obtain ⟨t, -, ht⟩ := exists_site hφ ha
    have hsite := h.phi_reads t _ ht hc
    rw [hsite, h.arg, Option.some.injEq, PhiArg.mk.injEq] at ht
    refine ⟨ht.1.symm, ?_⟩
    rw [hk, ← ht.1]
    exact (List.getElem?_eq_some_iff.1 h.instr).1

/-- Every operand of a phi is the target of a recorded copy. -/
theorem Lowered.operand (h : Lowered p n q cs) {b : Label} {φ : Phi} {a : PhiArg}
    (hφ : φ ∈ q.phis b) (ha : a ∈ φ.args) :
    ∃ c ∈ cs, c.dst = a.value ∧ c.location = a.source ∧ c.site.block = b ∧
      (q.phis b)[c.site.phi]? = some φ := by
  obtain ⟨s, ⟨hb, hs⟩, harg⟩ := exists_site hφ ha
  obtain ⟨c, hc, rfl⟩ := h.recorded s (by rw [harg]; rfl)
  have heq := (h.records c hc).arg.symm.trans harg
  rw [Option.some.injEq] at heq
  exact ⟨c, hc, congrArg PhiArg.value heq, congrArg PhiArg.source heq, hb, hs⟩

/-- Behind a copy no variable that a phi of the next block sets is live. -/
theorem Lowered.not_live_receiver (h : Lowered p n q cs) (hc : c ∈ cs) {b : Label} {k : Nat}
    {r : Var} (hr : r ∈ q.receivers c.site.block) (hv : q.Live b k r) (hb : b = c.location)
    (hk : c.index < k) : False := by
  have hrec := h.records c hc
  have hq := h.refines.wellFormed
  -- the block leads to the block of the phi only
  have hnext : ∀ {s : Label}, q.Edge c.location s → s = c.site.block := by
    intro s he
    have hmem := he.1
    rw [targets, hrec.last] at hmem
    exact List.mem_singleton.1 hmem
  induction hv with
  | @read b k i r hi hread =>
    subst hb
    rcases hrec.after k i hk hi with rfl | rfl | ⟨c', hc', rfl, hblock⟩
    · exact absurd hread List.not_mem_nil
    · exact absurd hread List.not_mem_nil
    · rw [List.mem_singleton.1 hread, ← hblock] at hr
      exact (h.records c' hc').value hr
  | pass _ _ _ ih => exact ih hr hb (Nat.lt_succ_of_lt hk)
  | cross _ he hnot =>
    subst hb
    rw [hnext he] at hnot
    exact hnot hr
  | arrive _ _ hφ ha =>
    obtain ⟨c', hc', hdst, -⟩ := h.operand hφ ha
    obtain rfl : c'.dst = _ := hdst
    exact (h.records c' hc').notMem_receivers hq _ hr

/-- The variable set by the phi that a variable is copied for, or else the variable itself. -/
def tie (q : Program) (cs : List EdgeCopy) (v : Var) : Var :=
  match cs.find? (·.dst = v) with
  | some c => ((q.receivers c.site.block)[c.site.phi]?).getD v
  | none => v

theorem tie_of_notMem {v : Var} (hv : ∀ c ∈ cs, c.dst ≠ v) : q.tie cs v = v := by
  have hnone : cs.find? (·.dst = v) = none := by
    rw [List.find?_eq_none]
    intro c hc
    simpa using hv c hc
  rw [tie, hnone]

theorem dst_or_tie_eq (q : Program) (cs : List EdgeCopy) (v : Var) :
    (∃ c ∈ cs, c.dst = v) ∨ q.tie cs v = v := by
  by_cases hv : ∃ c ∈ cs, c.dst = v
  · exact .inl hv
  · exact .inr (tie_of_notMem fun c hc heq => hv ⟨c, hc, heq⟩)

theorem Staged.tie_dst (h : Staged p n q cs) (hc : c ∈ cs) :
    (q.receivers c.site.block)[c.site.phi]? = some (q.tie cs c.dst) := by
  rcases hfind : cs.find? (·.dst = c.dst) with - | c'
  · rw [List.find?_eq_none] at hfind
    exact absurd (decide_eq_true rfl) (hfind c hc)
  · have hdst := List.find?_some hfind
    rw [decide_eq_true_eq] at hdst
    have hsite := (h.records c' (List.mem_of_find?_eq_some hfind)).phi_reads c.site _
      (h.records c hc).arg hdst.symm
    obtain ⟨φ, hφ, -⟩ := phi_of_site (h.records c hc).arg
    have hr : (q.receivers c.site.block)[c.site.phi]? = some φ.dst := by
      rw [Program.receivers, List.getElem?_map, hφ]
      rfl
    rw [tie, hfind]
    show _ = some (((q.receivers c'.site.block)[c'.site.phi]?).getD c.dst)
    rw [← hsite, hr]
    rfl

/-- A variable that a phi sets is not the target of a copy. -/
theorem Staged.tie_receiver (h : Staged p n q cs) {b : Label} {r : Var} (hr : r ∈ q.receivers b) :
    q.tie cs r = r := by
  apply tie_of_notMem
  rintro c hc rfl
  exact (h.records c hc).notMem_receivers h.refines.wellFormed b hr

/-- What is tied to the target of a copy, and is no such target itself, is set by a phi of the
block that the copy leads to. -/
theorem Staged.mem_receivers_of_tie (h : Staged p n q cs) (hc : c ∈ cs) {v : Var}
    (htie : q.tie cs c.dst = q.tie cs v) (hv : q.tie cs v = v) :
    v ∈ q.receivers c.site.block := by
  have hr := h.tie_dst hc
  rw [htie, hv] at hr
  exact List.mem_of_getElem? hr

theorem Lowered.tie_arg (h : Lowered p n q cs) {b : Label} {φ : Phi} {a : PhiArg}
    (hφ : φ ∈ q.phis b) (ha : a ∈ φ.args) : q.tie cs φ.dst = q.tie cs a.value := by
  obtain ⟨c, hc, hdst, -, hb, hphi⟩ := h.operand hφ ha
  have hr : (q.receivers b)[c.site.phi]? = some (q.tie cs c.dst) := hb ▸ h.tie_dst hc
  rw [receivers, List.getElem?_map, hphi, Option.map_some, Option.some.injEq] at hr
  rw [h.tie_receiver (mem_receivers.2 ⟨φ, hφ, rfl⟩), ← hdst, hr]

/-- Copies for one phi that stand in one block are the same. -/
theorem Staged.dst_unique (h : Staged p n q cs) {c' : EdgeCopy} (hc : c ∈ cs) (hc' : c' ∈ cs)
    (htie : q.tie cs c.dst = q.tie cs c'.dst) (hloc : c.location = c'.location) :
    c.dst = c'.dst := by
  have hq := h.refines.wellFormed
  have hsite := hq.once (.phi c.site.block c.site.phi) (.phi c'.site.block c'.site.phi) _
    (defines_phi_iff.2 (h.tie_dst hc)) (defines_phi_iff.2 (htie ▸ h.tie_dst hc'))
  rw [DefSite.phi.injEq] at hsite
  obtain ⟨φ, hφ, ha⟩ := phi_of_site (h.records c hc).arg
  obtain ⟨φ', hφ', ha'⟩ := phi_of_site (h.records c' hc').arg
  rw [← hsite.1, ← hsite.2, hφ, Option.some.injEq] at hφ'
  subst hφ'
  rw [← hloc] at ha'
  exact hq.arg_unique (List.mem_of_getElem? hφ) (List.mem_of_getElem? ha)
    (List.mem_of_getElem? ha')

/-- **Variables that phis tie together do not clash.** -/
theorem Lowered.apart (h : Lowered p n q cs) {u v : Var} (huv : u ≠ v)
    (htie : q.tie cs u = q.tie cs v) : ¬ q.Clash n u v := by
  have hq := h.refines.wellFormed
  intro hclash
  rcases dst_or_tie_eq q cs u with ⟨c, hc, hcu⟩ | hu
  · have hrec := h.records c hc
    have hnot := hrec.notMem_receivers hq
    have hparam := hrec.not_param hq
    rw [hcu] at hnot hparam
    cases hclash with
    | instr hi hdst hlive =>
      obtain ⟨rfl, rfl⟩ := hrec.place hq hi (hcu ▸ hdst)
      rw [← hcu] at htie
      rcases dst_or_tie_eq q cs v with ⟨c', hc', rfl⟩ | hv
      · have hloc := ((h.records c' hc').live_dst hlive rfl).1
        exact huv (hcu.symm.trans (h.dst_unique hc hc' htie hloc))
      · have hr := h.mem_receivers_of_tie hc htie hv
        exact h.not_live_receiver hc hr hlive rfl (Nat.lt_succ_self _)
    | phi hφ _ => exact hnot _ (mem_receivers.2 ⟨_, hφ, rfl⟩)
    | phis _ hφ _ => exact hnot _ (mem_receivers.2 ⟨_, List.mem_of_getElem? hφ, rfl⟩)
    | params ha _ => exact hparam ha
    | entry ha _ _ => exact hparam ha
  · rcases dst_or_tie_eq q cs v with ⟨c, hc, hcv⟩ | hv
    swap
    · exact huv (by rw [← hu, htie, hv])
    have hrec := h.records c hc
    have hr := h.mem_receivers_of_tie hc (hcv ▸ htie.symm) hu
    cases hclash with
    | @instr b k i _ _ hi hdst _ =>
      -- a variable set by an instruction is not set by a phi
      obtain ⟨l, hl⟩ := List.mem_iff_getElem?.1 hr
      cases hq.once (.instr b k) (.phi c.site.block l) u ⟨i, hi, hdst⟩ (defines_phi_iff.2 hl)
    | phi _ hlive => exact absurd (hrec.live_dst hlive hcv.symm).2 (Nat.not_lt_zero _)
    | phis _ _ hψ =>
      exact hrec.notMem_receivers hq _ (mem_receivers.2 ⟨_, List.mem_of_getElem? hψ, hcv.symm⟩)
    | params _ hv => exact hrec.not_param hq (hcv ▸ hv)
    | entry _ _ hlive => exact absurd (hrec.live_dst hlive hcv.symm).2 (Nat.not_lt_zero _)

/-- The classes of a lowered program are what is tied together. -/
theorem Lowered.root_eq_iff (h : Lowered p n q cs) {u v : Var} :
    q.phiClasses.classes.root u = q.phiClasses.classes.root v ↔ q.tie cs u = q.tie cs v := by
  obtain ⟨-, -, htied, hleast⟩ := phiClasses_spec h.refines.wellFormed
  have hlabels := hleast (q.tie cs) fun b φ a => h.tie_arg
  have hroot : ∀ v, q.phiClasses.classes.root (q.tie cs v) = q.phiClasses.classes.root v := by
    intro v
    rcases dst_or_tie_eq q cs v with ⟨c, hc, rfl⟩ | hv
    · obtain ⟨φ, hφ, ha⟩ := phi_of_site (h.records c hc).arg
      have hr := h.tie_dst hc
      rw [receivers, List.getElem?_map, hφ, Option.map_some, Option.some.injEq] at hr
      rw [← hr]
      exact htied _ φ _ (List.mem_of_getElem? hφ) (List.mem_of_getElem? ha)
    · rw [hv]
  constructor
  · exact hlabels.eq_of_root
  · intro htie
    rw [← hroot u, htie, hroot v]

/-- **The class of a phi** is what it sets and the targets of the copies for it. -/
theorem Lowered.root_eq_receiver_iff (h : Lowered p n q cs) {b : Label} {k : Nat} {r v : Var}
    (hr : (q.receivers b)[k]? = some r) :
    q.phiClasses.classes.root v = q.phiClasses.classes.root r ↔
      v = r ∨ ∃ c ∈ cs, c.site.block = b ∧ c.site.phi = k ∧ c.dst = v := by
  rw [h.root_eq_iff, h.tie_receiver (List.mem_of_getElem? hr)]
  constructor
  · intro htie
    rcases dst_or_tie_eq q cs v with ⟨c, hc, rfl⟩ | hv
    · have hdst := h.tie_dst hc
      rw [htie] at hdst
      -- a variable is set by one phi only
      have hsite := h.refines.wellFormed.once (.phi c.site.block c.site.phi) (.phi b k) r
        (defines_phi_iff.2 hdst) (defines_phi_iff.2 hr)
      rw [DefSite.phi.injEq] at hsite
      exact .inr ⟨c, hc, hsite.1, hsite.2, rfl⟩
    · exact .inl (hv.symm.trans htie)
  · rintro (rfl | ⟨c, hc, rfl, rfl, rfl⟩)
    · exact h.tie_receiver (List.mem_of_getElem? hr)
    · rw [h.tie_dst hc, Option.some.injEq] at hr
      exact hr

/-- A variable that no phi sets and that is no target of a copy is alone. -/
theorem Lowered.eq_of_root_eq (h : Lowered p n q cs) {u v : Var} (hv : ∀ b, v ∉ q.receivers b)
    (hcopy : ∀ c ∈ cs, c.dst ≠ v)
    (hroot : q.phiClasses.classes.root u = q.phiClasses.classes.root v) : u = v := by
  rw [h.root_eq_iff, tie_of_notMem hcopy] at hroot
  rcases dst_or_tie_eq q cs u with ⟨c, hc, rfl⟩ | hu
  · have hdst := h.tie_dst hc
    rw [hroot] at hdst
    exact absurd (List.mem_of_getElem? hdst) (hv _)
  · exact hu.symm.trans hroot

/-- Different records set different variables: what reads the target of a copy is the operand the
copy was made for. -/
theorem Staged.eq_of_dst_eq (h : Staged p n q cs) {c' : EdgeCopy} (hc : c ∈ cs) (hc' : c' ∈ cs)
    (heq : c.dst = c'.dst) : c = c' := by
  have hsite := (h.records c hc).phi_reads c'.site _ (h.records c' hc').arg heq.symm
  exact List.inj_on_of_nodup_map h.nodup hc hc' hsite.symm

/-- The phis of `q` are those of `p`, except that every operand is copied to a new variable of its
own and read from there: an operand has one record, and no two records have the same target. -/
structure CopiedPhis (p q : Program) (cs : List EdgeCopy) : Prop where
  receivers : ∀ b, q.receivers b = p.receivers b
  operands : ∀ s, (q.argAt? s).isSome = (p.argAt? s).isSome
  recorded : ∀ s, (p.argAt? s).isSome = true → ∃! c, c ∈ cs ∧ c.site = s
  copied : ∀ c ∈ cs, (q.body c.location)[c.index]? = some (.copy c.dst c.value)
  arg : ∀ c ∈ cs, q.argAt? c.site = some ⟨c.location, c.dst⟩
  fresh : ∀ c ∈ cs, p.vars.size ≤ c.dst
  distinct : ∀ c ∈ cs, ∀ c' ∈ cs, c.dst = c'.dst → c = c'

theorem Lowered.copiedPhis (h : Lowered p n q cs) : CopiedPhis p q cs where
  receivers := h.receivers
  operands := h.sites
  recorded s hs := by
    rw [← h.sites] at hs
    obtain ⟨c, hc, rfl⟩ := h.recorded s hs
    exact ⟨c, ⟨hc, rfl⟩, fun c' hc' => List.inj_on_of_nodup_map h.nodup hc'.1 hc hc'.2⟩
  copied c hc := (h.records c hc).instr
  arg c hc := (h.records c hc).arg
  fresh := h.fresh
  distinct c hc c' hc' := h.eq_of_dst_eq hc hc'

/-- No two variables of a class of phis interfere. -/
theorem Lowered.root_ne (h : Lowered p n q cs) {u v : Var}
    (hadj : (q.interference q.liveness n).adjacent u v = true) :
    q.phiClasses.classes.root u ≠ q.phiClasses.classes.root v := by
  have hq := h.refines.wellFormed
  obtain ⟨huv, -, -, hclash⟩ := (adjacent_interference hq.indexed hq.entry u v).1 hadj
  rw [Ne, h.root_eq_iff]
  intro htie
  rcases hclash with hclash | hclash
  · exact h.apart huv htie hclash
  · exact h.apart (Ne.symm huv) htie.symm hclash

end Program

end ChordalAlloc
