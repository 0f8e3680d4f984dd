/-
ChordalAlloc/Proofs/Detour.lean

Putting an empty block on an edge.

`Program.Detours p p' s b` describes the result part by part: a new block
`e` holds nothing but a jump to `b`, the terminator of `s` names `e` where it
named `b`, and the phis of `b` name `e` where they named `s`.  Control that
went from `s` to `b` now goes from `s` to `e` and from `e` to `b`, with
nothing done on the way (`Detours.refines`).
-/
import ChordalAlloc.Proofs.Refinement
import ChordalAlloc.Proofs.Steps

namespace ChordalAlloc

/-! ### New names for blocks -/

/-- The phi with other names for its sources. -/
def Phi.resource (φ : Phi) (f : Label → Label) : Phi :=
  { φ with args := φ.args.map fun a => { a with source := f a.source } }

/-- The exit with another name for a target. -/
def Exit.redirect (old new : Label) : Exit → Exit
  | .goto t => .goto (t.redirect old new)
  | .leave o => .leave o

theorem Instr.exit_redirect (i : Instr) (r : Var → Int64) (old new : Label) :
    (i.redirect old new).exit r = (i.exit r).redirect old new := by
  cases i with
  | branch c t e =>
    simp only [Instr.redirect, Instr.exit, Exit.redirect]
    split <;> rfl
  | switch v ts d =>
    simp only [Instr.redirect, Instr.exit, Exit.redirect]
    split
    · rfl
    · rw [List.getD_eq_getElem?_getD, List.getD_eq_getElem?_getD, List.getElem?_map]
      rcases ts[(r v).toNatClampNeg]? with - | t <;> rfl
  | _ => rfl

/-- An entry is found under its new name if no other entry got the same. -/
theorem Phi.argFrom?_resource {φ : Phi} {f : Label → Label} {x : Label}
    (hf : ∀ a ∈ φ.args, f a.source = f x → a.source = x) :
    (φ.resource f).argFrom? (f x) = (φ.argFrom? x).map fun a => { a with source := f x } := by
  simp only [Phi.argFrom?, Phi.resource]
  generalize φ.args = as at hf
  induction as with
  | nil => rfl
  | cons a as ih =>
    rw [List.forall_mem_cons] at hf
    rw [List.map_cons, List.find?_cons, List.find?_cons]
    by_cases hax : a.source = x
    · rw [hax, beq_self_eq_true, beq_self_eq_true, Option.map_some]
    · have hne : f a.source ≠ f x := fun h => hax (hf.1 h)
      rw [beq_false_of_ne hax, beq_false_of_ne hne]
      exact ih hf.2

namespace Program

/-- Where control comes to `c` from that came from `x`, with a block on the edge from `s`
to `b`. -/
def via (p : Program) (s b c x : Label) : Label :=
  if c = b then x.redirect s p.blocks.size else x

section Via

variable {p : Program} {s b c x y : Label}

theorem via_of_ne (hx : x ≠ s) : p.via s b c x = x := by
  unfold via Label.redirect
  rw [if_neg hx, ite_self]

theorem via_source : p.via s b b s = p.blocks.size := by
  unfold via Label.redirect
  rw [if_pos rfl, if_pos rfl]

theorem via_eq_or (p : Program) (s b c x : Label) :
    p.via s b c x = x ∨ p.via s b c x = p.blocks.size ∧ x = s ∧ c = b := by
  unfold via Label.redirect
  split
  · next hc =>
    split
    · next hx => exact .inr ⟨rfl, hx, hc⟩
    · exact .inl rfl
  · exact .inl rfl

theorem via_inj (hx : x < p.blocks.size) (hy : y < p.blocks.size)
    (h : p.via s b c x = p.via s b c y) : x = y := by
  rcases via_eq_or p s b c x with hvx | ⟨hvx, hxs, -⟩ <;>
    rcases via_eq_or p s b c y with hvy | ⟨hvy, hys, -⟩
  · exact hvx.symm.trans (h.trans hvy)
  · exact absurd (hvx.symm.trans (h.trans hvy)) (Nat.ne_of_lt hx)
  · exact absurd (hvy.symm.trans (h.symm.trans hvx)) (Nat.ne_of_lt hy)
  · exact hxs.trans hys.symm

end Via

/-- The program `p'` is `p` with a block on the edge from `s` to `b`. -/
structure Detours (p p' : Program) (s b : Label) : Prop where
  edge : p.Edge s b
  vars : p'.vars = p.vars
  size : p'.blocks.size = p.blocks.size + 1
  indexed : p.Indexed → p'.Indexed
  body_source : p'.body s =
    (p.body s).modify ((p.body s).length - 1) (·.redirect b p.blocks.size)
  body_edge : p'.body p.blocks.size = [.jump b]
  body_other : ∀ c, c ≠ s → c ≠ p.blocks.size → p'.body c = p.body c
  phis_target : p'.phis b = (p.phis b).map (·.resource fun c => c.redirect s p.blocks.size)
  phis_other : ∀ c, c ≠ b → p'.phis c = p.phis c

namespace Detours

variable {p p' : Program} {n : Nat} {s b : Label}

/-! ### What the parts look like -/

theorem lt_source (hd : Detours p p' s b) : s < p.blocks.size := hd.edge.lt_size

theorem ne_source (hd : Detours p p' s b) : s ≠ p.blocks.size := Nat.ne_of_lt hd.lt_source

theorem ne_target (hd : Detours p p' s b) : b ≠ p.blocks.size := Nat.ne_of_lt hd.edge.2

/-- The instructions of the source of the edge differ in the terminator only. -/
theorem body_source_eq (hd : Detours p p' s b) (h : p.WellFormed n) :
    ∃ init t, p.body s = init ++ [t] ∧ t.isTerminator = true ∧
      (∀ i ∈ init, i.isTerminator = false) ∧
      p'.body s = init ++ [t.redirect b p.blocks.size] := by
  obtain ⟨init, t, hbody, ht, hinit⟩ := h.closed s hd.lt_source
  refine ⟨init, t, hbody, ht, hinit, ?_⟩
  rw [hd.body_source, hbody, List.length_append, List.length_singleton, Nat.add_sub_cancel,
    List.modify_eq_take_cons_drop (by simp)]
  simp

/-- Away from the new block, instructions look the same to whatever ignores targets. -/
theorem map_body {α : Type} (hd : Detours p p' s b) (h : p.WellFormed n) {f : Instr → α}
    (hf : ∀ i old new, f (i.redirect old new) = f i) {c : Label} (hc : c ≠ p.blocks.size) :
    (p'.body c).map f = (p.body c).map f := by
  by_cases hcs : c = s
  · subst hcs
    obtain ⟨init, t, hbody, -, -, hbody'⟩ := hd.body_source_eq h
    rw [hbody, hbody', List.map_append, List.map_append, List.map_singleton, List.map_singleton, hf]
  · rw [hd.body_other c hcs hc]

theorem length_body (hd : Detours p p' s b) (h : p.WellFormed n) {c : Label}
    (hc : c ≠ p.blocks.size) : (p'.body c).length = (p.body c).length := by
  have hlen := congrArg List.length (hd.map_body h (f := Instr.dst?) Instr.dst?_redirect hc)
  rwa [List.length_map, List.length_map] at hlen

theorem instr_of (hd : Detours p p' s b) (h : p.WellFormed n) {c : Label} {k : Nat} {i : Instr}
    (hc : c ≠ p.blocks.size) (hi : (p'.body c)[k]? = some i) :
    ∃ j, (p.body c)[k]? = some j ∧ j.dst? = i.dst? ∧ j.reads = i.reads := by
  have hmap := congrArg (·[k]?) (hd.map_body h (f := fun i => (i.dst?, i.reads))
    (fun i old new => by rw [Instr.dst?_redirect, Instr.reads_redirect]) hc)
  simp only [List.getElem?_map, hi, Option.map_some] at hmap
  obtain ⟨j, hj, heq⟩ := Option.map_eq_some_iff.1 hmap.symm
  rw [Prod.mk.injEq] at heq
  exact ⟨j, hj, heq⟩

/-- The phis of every block name the blocks that control comes from. -/
theorem phis (hd : Detours p p' s b) (c : Label) :
    p'.phis c = (p.phis c).map (·.resource (p.via s b c)) := by
  by_cases hc : c = b
  · subst hc
    have hvia : p.via s c c = fun x => x.redirect s p.blocks.size := by
      funext x
      exact if_pos rfl
    rw [hd.phis_target, hvia]
  · have hvia : p.via s b c = id := by
      funext x
      exact if_neg hc
    rw [hd.phis_other c hc, hvia]
    simp [Phi.resource]

theorem receivers (hd : Detours p p' s b) (c : Label) : p'.receivers c = p.receivers c := by
  rw [Program.receivers, hd.phis, List.map_map]
  rfl

/-- A phi of the new program comes from one of the old. -/
theorem phi_of (hd : Detours p p' s b) {c : Label} {φ : Phi} (hφ : φ ∈ p'.phis c) :
    ∃ ψ ∈ p.phis c, φ = ψ.resource (p.via s b c) := by
  rw [hd.phis] at hφ
  obtain ⟨ψ, hψ, rfl⟩ := List.mem_map.1 hφ
  exact ⟨ψ, hψ, rfl⟩

theorem phiArg? (hd : Detours p p' s b) (c : Label) (k j : Nat) :
    p'.phiArg? c k j =
      (p.phiArg? c k j).map fun a => { a with source := p.via s b c a.source } := by
  rw [phiArg?_eq, phiArg?_eq, hd.phis, List.getElem?_map]
  rcases (p.phis c)[k]? with - | φ
  · rfl
  · exact List.getElem?_map

/-! ### Edges -/

theorem targets_source (hd : Detours p p' s b) (h : p.WellFormed n) :
    p'.targets s = (p.targets s).map (·.redirect b p.blocks.size) := by
  obtain ⟨init, t, hbody, -, -, hbody'⟩ := hd.body_source_eq h
  rw [targets, targets, hbody, hbody', List.getLast?_concat, List.getLast?_concat]
  exact Instr.targets_redirect t b p.blocks.size

theorem targets_edge (hd : Detours p p' s b) : p'.targets p.blocks.size = [b] := by
  rw [targets, hd.body_edge]
  rfl

theorem edge_iff (hd : Detours p p' s b) (h : p.WellFormed n) {x y : Label} :
    p'.Edge x y ↔ x = p.blocks.size ∧ y = b ∨ x = s ∧ y = p.blocks.size ∨
      p.Edge x y ∧ ¬(x = s ∧ y = b) := by
  have hb := hd.edge.2
  have hs := hd.lt_source
  rw [Edge, hd.size]
  by_cases hx : x = p.blocks.size
  · subst hx
    rw [hd.targets_edge, List.mem_singleton]
    constructor
    · exact fun hy => .inl ⟨rfl, hy.1⟩
    · rintro (⟨-, rfl⟩ | ⟨hx, -⟩ | ⟨hedge, -⟩)
      · exact ⟨rfl, Nat.lt_succ_of_lt hb⟩
      · exact absurd hx (Ne.symm hd.ne_source)
      · exact absurd hedge.lt_size (Nat.lt_irrefl _)
  · by_cases hxs : x = s
    · subst hxs
      rw [hd.targets_source h, List.mem_map]
      constructor
      · rintro ⟨⟨t, ht, rfl⟩, hlt⟩
        unfold Label.redirect at hlt ⊢
        split
        · exact .inr (.inl ⟨rfl, rfl⟩)
        · next htb => exact .inr (.inr ⟨⟨ht, h.targets_lt x t ht⟩, fun hy => htb hy.2⟩)
      · rintro (⟨hx', -⟩ | ⟨-, rfl⟩ | ⟨hedge, hne⟩)
        · exact absurd hx' hx
        · exact ⟨⟨b, hd.edge.1, if_pos rfl⟩, Nat.lt_succ_self _⟩
        · exact ⟨⟨y, hedge.1, if_neg fun hy => hne ⟨rfl, hy⟩⟩, Nat.lt_succ_of_lt hedge.2⟩
    · have htargets : p'.targets x = p.targets x := by
        rw [targets, targets, hd.body_other x hxs hx]
      rw [htargets]
      constructor
      · rintro ⟨hy, -⟩
        exact .inr (.inr ⟨⟨hy, h.targets_lt x y hy⟩, fun hxy => hxs hxy.1⟩)
      · rintro (⟨hx', -⟩ | ⟨hx', -⟩ | ⟨hedge, -⟩)
        · exact absurd hx' hx
        · exact absurd hx' hxs
        · exact ⟨hedge.1, Nat.lt_succ_of_lt hedge.2⟩

/-- The edges into a block of the old program come from where control comes from. -/
theorem edge_via (hd : Detours p p' s b) (h : p.WellFormed n) {a c : Label}
    (hc : c < p.blocks.size) : p'.Edge a c ↔ ∃ x, p.Edge x c ∧ p.via s b c x = a := by
  rw [hd.edge_iff h]
  constructor
  · rintro (⟨rfl, rfl⟩ | ⟨-, hc'⟩ | ⟨hedge, hne⟩)
    · exact ⟨s, hd.edge, via_source⟩
    · exact absurd hc' (Nat.ne_of_lt hc)
    · refine ⟨a, hedge, (via_eq_or ..).resolve_right ?_⟩
      rintro ⟨-, hac⟩
      exact hne hac
  · rintro ⟨x, hedge, rfl⟩
    by_cases hxc : x = s ∧ c = b
    · obtain ⟨rfl, rfl⟩ := hxc
      exact .inl ⟨via_source, rfl⟩
    · rw [(via_eq_or ..).resolve_right fun hvia => hxc hvia.2]
      exact .inr (.inr ⟨hedge, hxc⟩)

/-! ### The program stays well formed -/

theorem defines_iff (hd : Detours p p' s b) (h : p.WellFormed n) {d : DefSite} {v : Var} :
    p'.Defines n d v ↔ p.Defines n d v := by
  cases d with
  | entry => exact Iff.rfl
  | phi c k => rw [defines_phi_iff, defines_phi_iff, hd.receivers]
  | instr c k =>
    rw [defines_instr_iff, defines_instr_iff]
    by_cases hc : c = p.blocks.size
    · -- the new block sets nothing
      subst hc
      rw [hd.body_edge, body_of_le (Nat.le_refl _)]
      cases k <;> simp [Instr.dst?]
    · rw [hd.map_body h Instr.dst?_redirect hc]

theorem reads (hd : Detours p p' s b) (h : p.WellFormed n) {v : Var} (hv : p'.Reads v) :
    p.Reads v := by
  rcases hv with ⟨c, i, hi, hv⟩ | ⟨c, φ, hφ, hv⟩
  · obtain ⟨k, hk⟩ := List.mem_iff_getElem?.1 hi
    by_cases hc : c = p.blocks.size
    · subst hc
      rw [hd.body_edge, List.mem_singleton] at hi
      rw [hi] at hv
      exact absurd hv List.not_mem_nil
    · obtain ⟨j, hj, -, hreads⟩ := hd.instr_of h hc hk
      exact .inl ⟨c, j, List.mem_of_getElem? hj, hreads ▸ hv⟩
  · obtain ⟨ψ, hψ, rfl⟩ := hd.phi_of hφ
    rw [Phi.reads, Phi.resource, List.map_map] at hv
    exact .inr ⟨c, ψ, hψ, hv⟩

theorem phi_args (hd : Detours p p' s b) (h : p.WellFormed n) {c : Label} {φ : Phi}
    (hφ : φ ∈ p'.phis c) :
    (φ.args.map (·.source)).Nodup ∧ ∀ a, a ∈ φ.args.map (·.source) ↔ p'.Edge a c := by
  obtain ⟨ψ, hψ, rfl⟩ := hd.phi_of hφ
  obtain ⟨hnd, hmem⟩ := h.phi_args c ψ hψ
  have hsources : (ψ.resource (p.via s b c)).args.map (·.source)
      = (ψ.args.map (·.source)).map (p.via s b c) := by
    rw [Phi.resource, List.map_map, List.map_map]
    rfl
  rw [hsources]
  refine ⟨hnd.map_on fun x hx y hy => ?_, fun a => ?_⟩
  · exact via_inj ((hmem x).1 hx).lt_size ((hmem y).1 hy).lt_size
  · rw [hd.edge_via h (lt_size_of_phis hψ), List.mem_map]
    exact exists_congr fun x => and_congr_left' (hmem x)

theorem wellFormed (hd : Detours p p' s b) (h : p.WellFormed n) : p'.WellFormed n where
  indexed := hd.indexed h.indexed
  entry := by
    rw [hd.size]
    exact Nat.succ_pos _
  params := hd.vars ▸ h.params
  slots := hd.vars ▸ h.slots
  closed c hc := by
    rw [hd.size] at hc
    by_cases hce : c = p.blocks.size
    · refine ⟨[], .jump b, ?_, rfl, fun i hi => absurd hi List.not_mem_nil⟩
      rw [hce, hd.body_edge]
      rfl
    · by_cases hcs : c = s
      · subst hcs
        obtain ⟨init, t, -, ht, hinit, hbody'⟩ := hd.body_source_eq h
        exact ⟨init, _, hbody', (Instr.isTerminator_redirect t b _).trans ht, hinit⟩
      · rw [hd.body_other c hcs hce]
        exact h.closed c (by omega)
  targets_lt c t ht := by
    rw [hd.size]
    by_cases hce : c = p.blocks.size
    · rw [hce, hd.targets_edge, List.mem_singleton] at ht
      rw [ht]
      exact Nat.lt_succ_of_lt hd.edge.2
    · by_cases hcs : c = s
      · rw [hcs, hd.targets_source h, List.mem_map] at ht
        obtain ⟨x, hx, rfl⟩ := ht
        have hlt := h.targets_lt s x hx
        unfold Label.redirect
        split
        · exact Nat.lt_succ_self _
        · exact Nat.lt_succ_of_lt hlt
      · rw [targets, hd.body_other c hcs hce] at ht
        exact Nat.lt_succ_of_lt (h.targets_lt c t ht)
  defines_lt d v hdef := by
    rw [hd.vars]
    exact h.defines_lt d v ((hd.defines_iff h).1 hdef)
  once d d' v hdef hdef' :=
    h.once d d' v ((hd.defines_iff h).1 hdef) ((hd.defines_iff h).1 hdef')
  defined v hv := by
    obtain ⟨d, hdef⟩ := h.defined v (hd.reads h hv)
    exact ⟨d, (hd.defines_iff h).2 hdef⟩
  entry_phis := by
    have hrec := hd.receivers 0
    rw [Program.receivers, Program.receivers, h.entry_phis, List.map_nil,
      List.map_eq_nil_iff] at hrec
    exact hrec
  phi_args c φ hφ := hd.phi_args h hφ

/-! ### Nothing becomes live -/

/-- What is live in the new block is live at the end of the source of the edge, and what is
live anywhere else was so before. -/
theorem live (hd : Detours p p' s b) (h : p.WellFormed n) {c : Label} {k : Nat} {v : Var}
    (hv : p'.Live c k v) :
    (c ≠ p.blocks.size → p.Live c k v) ∧
      (c = p.blocks.size → p.Live s (p.body s).length v) := by
  induction hv with
  | @read c k i v hi hv =>
    refine ⟨fun hc => ?_, fun hc => ?_⟩
    · obtain ⟨j, hj, -, hreads⟩ := hd.instr_of h hc hi
      exact .read hj (hreads ▸ hv)
    · have hi := List.mem_of_getElem? hi
      rw [hc, hd.body_edge, List.mem_singleton] at hi
      rw [hi] at hv
      exact absurd hv List.not_mem_nil
  | @pass c k i v hi hdst _ ih =>
    refine ⟨fun hc => ?_, ih.2⟩
    obtain ⟨j, hj, hjdst, -⟩ := hd.instr_of h hc hi
    exact .pass hj (hjdst ▸ hdst) (ih.1 hc)
  | @cross c t k v hk he hrec _ ih =>
    rw [hd.receivers] at hrec
    refine ⟨fun hc => ?_, fun hc => ?_⟩
    · rw [hd.length_body h hc] at hk
      rcases (hd.edge_iff h).1 he with ⟨hc', -⟩ | ⟨rfl, ht⟩ | ⟨hedge, -⟩
      · exact absurd hc' hc
      · rw [hk]
        exact ih.2 ht
      · exact .cross hk hedge hrec (ih.1 (Nat.ne_of_lt hedge.2))
    · rcases (hd.edge_iff h).1 he with ⟨-, rfl⟩ | ⟨hcs, -⟩ | ⟨hedge, -⟩
      · exact .cross rfl hd.edge hrec (ih.1 hd.ne_target)
      · exact absurd (hc.symm.trans hcs) (Ne.symm hd.ne_source)
      · rw [hc] at hedge
        exact absurd hedge.lt_size (Nat.lt_irrefl _)
  | @arrive c t k φ v hk he hφ ha =>
    obtain ⟨ψ, hψ, rfl⟩ := hd.phi_of hφ
    obtain ⟨⟨x, y⟩, hold, heq⟩ := List.mem_map.1 ha
    obtain ⟨hvia, rfl⟩ := (PhiArg.mk.injEq ..).mp heq
    -- the operand belongs to an edge of the old program
    have hedge : p.Edge x t := ((h.phi_args t ψ hψ).2 x).1 (List.mem_map.2 ⟨⟨x, y⟩, hold, rfl⟩)
    rcases via_eq_or p s b t x with hx | ⟨hx, rfl, -⟩
    · obtain rfl : x = c := hx.symm.trans hvia
      have hxe := Nat.ne_of_lt hedge.lt_size
      rw [hd.length_body h hxe] at hk
      exact ⟨fun _ => .arrive hk hedge hψ hold, fun hc => absurd hc hxe⟩
    · exact ⟨fun hc => absurd (hvia.symm.trans hx) hc, fun _ => .arrive rfl hedge hψ hold⟩

/-! ### Nothing else can be observed -/

/-- Control is at the same point with the same memory, and where it comes to `b` from `s` it
comes through the new block. -/
inductive On (p : Program) (s b : Label) : Config → Config → Prop
  | begun {m : Memory} : On p s b (.running none 0 m) (.running none 0 m)
  | onEdge {x y : Label} {m : Memory} : p.Edge x y →
    On p s b (.running (some x) y m)
      (.running (some (if y = b then x.redirect s p.blocks.size else x)) y m)
  | ended {o : Outcome} {cs : List Call} : On p s b (.ended o cs) (.ended o cs)

/-- Phis read the same operands, whichever way control comes. -/
theorem enterPhis_eq (hd : Detours p p' s b) (h : p.WellFormed n) {x y : Label}
    (he : p.Edge x y) (m : Memory) :
    enterPhis id (p'.phis y) (p.via s b y x) m = enterPhis id (p.phis y) x m := by
  unfold enterPhis
  congr 1
  rw [hd.phis, List.foldl_map]
  apply List.foldl_ext
  intro cells ψ hψ
  have hinj : ∀ a ∈ ψ.args, p.via s b y a.source = p.via s b y x → a.source = x := by
    intro a ha
    have hedge := ((h.phi_args y ψ hψ).2 a.source).1 (List.mem_map.2 ⟨a, ha, rfl⟩)
    exact via_inj hedge.lt_size he.lt_size
  rw [Phi.write, Phi.write, Phi.argFrom?_resource hinj]
  rcases ψ.argFrom? x with - | a <;> rfl

/-- The new block does nothing. -/
theorem step_edge (hd : Detours p p' s b) (w : World) (x : Label) (m : Memory) :
    p'.step w id (.running (some x) p.blocks.size m) = .running (some p.blocks.size) b m := by
  have hnew : p.blocks.size < p'.blocks.size := by
    rw [hd.size]
    exact Nat.lt_succ_self _
  rw [step_running hnew, enter, hd.phis, phis_of_le (Nat.le_refl _), hd.body_edge]
  rfl

/-- A block does the same to the memory, and leaves for the new block instead of the target. -/
theorem runBody_eq (hd : Detours p p' s b) (h : p.WellFormed n) {c : Label}
    (hc : c ≠ p.blocks.size) (w : World) (m : Memory) :
    runBody w id (p'.body c) m = ((runBody w id (p.body c) m).1,
      if c = s then (runBody w id (p.body c) m).2.redirect b p.blocks.size
      else (runBody w id (p.body c) m).2) := by
  by_cases hcs : c = s
  · subst hcs
    obtain ⟨init, t, hbody, ht, hinit, hbody'⟩ := hd.body_source_eq h
    rw [hbody, hbody', if_pos rfl]
    clear hbody hbody'
    induction init generalizing m with
    | nil =>
      have ht' : (t.redirect b p.blocks.size).isTerminator = true :=
        (Instr.isTerminator_redirect t b _).trans ht
      simp only [List.nil_append, runBody, ht, ht', if_true, Instr.exit_redirect]
    | cons i init ih =>
      rw [List.forall_mem_cons] at hinit
      simp only [List.cons_append, runBody, hinit.1, Bool.false_eq_true, if_false]
      exact ih _ hinit.2
  · rw [hd.body_other c hcs hc, if_neg hcs]

/-- Where the exit of a block leads, unless it leads over the edge. -/
theorem redirect_exit {c t : Label} (hct : ¬(c = s ∧ t = b)) (e : Label) :
    (if c = s then (Exit.goto t).redirect b e else .goto t) = .goto t := by
  split
  · next hcs =>
    show Exit.goto (if t = b then e else t) = _
    rw [if_neg fun htb => hct ⟨hcs, htb⟩]
  · rfl

/-- What one block does takes one step, or two with control in the new block in between. -/
theorem step (hd : Detours p p' s b) (h : p.WellFormed n) {w : World}
    {source source' : Option Label} {c : Label} {m : Memory} (hc : c < p.blocks.size)
    (henter : p'.enter id source' c m = p.enter id source c m) :
    ∃ k, On p s b (p.step w id (.running source c m))
        ((p'.step w id)^[k + 1] (.running source' c m)) ∧
      ∀ i < k, ∃ x m', (p'.step w id)^[i + 1] (.running source' c m)
        = .running x p.blocks.size m' := by
  have hc' : c < p'.blocks.size := by
    rw [hd.size]
    exact Nat.lt_succ_of_lt hc
  have hedge := h.edge_of_runBody (b := c) (w := w) (m := p.enter id source c m)
  have hfirst : p'.step w id (.running source' c m)
      = .after c (runBody w id (p'.body c) (p.enter id source c m)) := by
    rw [step_running hc', henter]
  rw [hd.runBody_eq h (Nat.ne_of_lt hc)] at hfirst
  rw [step_running hc]
  rcases hrun : runBody w id (p.body c) (p.enter id source c m) with ⟨m₁, t | o⟩ <;>
    rw [hrun] at hfirst hedge
  · have hon : On p s b (.running (some c) t m₁) (.running (some (p.via s b t c)) t m₁) :=
      .onEdge (hedge t rfl)
    by_cases hct : c = s ∧ t = b
    · -- one more step takes control through the new block
      obtain ⟨rfl, rfl⟩ := hct
      have hnew : p'.step w id (.running source' c m) = .running (some c) p.blocks.size m₁ := by
        rw [hfirst, if_pos rfl]
        show Config.running (some c) (if t = t then p.blocks.size else t) m₁ = _
        rw [if_pos rfl]
      have hsecond : (p'.step w id)^[1 + 1] (.running source' c m)
          = .running (some p.blocks.size) t m₁ := by
        show p'.step w id (p'.step w id (.running source' c m)) = _
        rw [hnew, hd.step_edge]
      rw [via_source, ← hsecond] at hon
      refine ⟨1, hon, fun i hi => ⟨some c, m₁, ?_⟩⟩
      obtain rfl : i = 0 := Nat.lt_one_iff.1 hi
      exact hnew
    · rw [redirect_exit hct] at hfirst
      rw [(via_eq_or ..).resolve_right fun hvia => hct hvia.2] at hon
      refine ⟨0, ?_, fun i hi => absurd hi (Nat.not_lt_zero i)⟩
      show On p s b _ (p'.step w id (.running source' c m))
      rw [hfirst]
      exact hon
  · refine ⟨0, ?_, fun i hi => absurd hi (Nat.not_lt_zero i)⟩
    show On p s b (.ended o m₁.calls) (p'.step w id (.running source' c m))
    rw [hfirst]
    show On p s b _ (Config.after c (m₁, if c = s then .leave o else .leave o))
    rw [ite_self]
    exact .ended

/-- Related runs stay so, and the second is in the new block whenever it is behind. -/
theorem On.step (hd : Detours p p' s b) (h : p.WellFormed n) {w : World} {source : Option Label}
    {c : Label} {m : Memory} {c' : Config} (hr : On p s b (.running source c m) c') :
    ∃ k, On p s b (p.step w id (.running source c m)) ((p'.step w id)^[k + 1] c') ∧
      ∀ i < k, ∃ x m', (p'.step w id)^[i + 1] c' = .running x p.blocks.size m' := by
  cases hr with
  | begun => exact hd.step h h.entry rfl
  | onEdge he => exact hd.step h he.2 (hd.enterPhis_eq h he m)

/-- **A block on an edge changes nothing that matters.** -/
theorem refines (hd : Detours p p' s b) (h : p.WellFormed n) : Refines n p p' where
  wellFormed := hd.wellFormed h
  entered he v hv := he v ((hd.live h hv).1 (Nat.ne_of_lt h.entry))
  behavior w args := by
    apply SameBehavior.of_simulation (R := On p s b)
    · intro c c' hr
      cases hr <;> rfl
    · intro source c m c' hr
      cases hr with
      | begun => exact ⟨_, _, _, rfl⟩
      | onEdge _ => exact ⟨_, _, _, rfl⟩
    · intro o cs c' hr
      cases hr
      rfl
    · intro source c m c' hr
      exact (On.step hd h hr).imp fun _ hk => hk.1
    · exact .begun

end Detours

end Program

end ChordalAlloc
