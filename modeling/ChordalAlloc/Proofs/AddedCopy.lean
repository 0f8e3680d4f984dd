/-
ChordalAlloc/Proofs/AddedCopy.lean

Putting a copy before a jump, for an operand of a phi.

`Program.CopyAdded` describes the result part by part: there is one more
variable, the block `loc` sets it to the operand `x` right before it jumps to
`b`, and the operand that a phi of `b` had for control from `loc` is the new
variable now.  The old program is the new one trimmed, so both behave alike
(`CopyAdded.refines`).
-/
import ChordalAlloc.Proofs.Refinement
import ChordalAlloc.Proofs.Rewiring
import ChordalAlloc.Proofs.Trim

namespace ChordalAlloc

namespace Program

/-- The program `p'` is `p` with a copy in `loc` for entry `j` of phi `k` of block `b`. -/
structure CopyAdded (p p' : Program) (b : Label) (k j : Nat) (loc : Label) (x : Var)
    (init : List Instr) : Prop extends Rewires p p' b k j loc x p.vars.size where
  vars : p'.vars = p.vars.push { id := p.vars.size }
  size : p'.blocks.size = p.blocks.size
  indexed : p.Indexed → p'.Indexed
  body_old : p.body loc = init ++ [.jump b]
  body_new : p'.body loc = init ++ [.copy p.vars.size x, .jump b]
  body_other : ∀ c, c ≠ loc → p'.body c = p.body c

namespace CopyAdded

variable {p p' : Program} {n : Nat} {b : Label} {k j : Nat} {loc : Label} {x : Var}
variable {init : List Instr}

/-! ### What the parts look like -/

theorem ne_operand (hc : CopyAdded p p' b k j loc x init) (h : p.WellFormed n) :
    p.vars.size ≠ x :=
  Nat.ne_of_gt (h.reads_lt hc.reads_operand)

/-- Nothing before the jump ends the block. -/
theorem not_isTerminator (hc : CopyAdded p p' b k j loc x init) (h : p.WellFormed n) {i : Instr}
    (hi : i ∈ init) : i.isTerminator = false := by
  obtain ⟨front, t, hbody, -, hfront⟩ := h.closed loc (hc.edge h).lt_size
  rw [hc.body_old] at hbody
  obtain ⟨rfl, -⟩ := List.append_inj' hbody rfl
  exact hfront i hi

theorem targets (hc : CopyAdded p p' b k j loc x init) (c : Label) :
    p'.targets c = p.targets c := by
  by_cases hcl : c = loc
  · have hnew : init ++ [.copy p.vars.size x, .jump b]
        = (init ++ [.copy p.vars.size x]) ++ [.jump b] := by
      rw [List.append_assoc]
      rfl
    rw [Program.targets, Program.targets, hcl, hc.body_old, hc.body_new, hnew,
      List.getLast?_concat, List.getLast?_concat]
  · rw [Program.targets, Program.targets, hc.body_other c hcl]

theorem edge_iff (hc : CopyAdded p p' b k j loc x init) {c d : Label} :
    p'.Edge c d ↔ p.Edge c d := by
  rw [Edge, Edge, hc.targets, hc.size]

/-! ### The program stays well formed -/

/-- The only new definition is that of the new variable. -/
theorem defines_iff (hc : CopyAdded p p' b k j loc x init) {d : DefSite} {v : Var} :
    p'.Defines n d v ↔
      p.Defines n d v ∨ d = .instr loc init.length ∧ v = p.vars.size := by
  cases d with
  | entry => exact ⟨.inl, fun h => h.elim id fun h => by cases h.1⟩
  | phi c l =>
    rw [defines_phi_iff, defines_phi_iff, hc.receivers]
    exact ⟨.inl, fun h => h.elim id fun h => by cases h.1⟩
  | instr c l =>
    rw [defines_instr_iff, defines_instr_iff, DefSite.instr.injEq]
    by_cases hcl : c = loc
    · subst hcl
      rw [hc.body_old, hc.body_new, List.map_append, List.map_append]
      rcases Nat.lt_or_ge l init.length with hlt | hge
      · rw [List.getElem?_append_left (by rw [List.length_map]; exact hlt),
          List.getElem?_append_left (by rw [List.length_map]; exact hlt)]
        exact ⟨.inl, fun h => h.elim id fun h => absurd h.1.2 (Nat.ne_of_lt hlt)⟩
      · obtain ⟨l, rfl⟩ := Nat.exists_eq_add_of_le hge
        rw [List.getElem?_append_right (by rw [List.length_map]; exact hge),
          List.getElem?_append_right (by rw [List.length_map]; exact hge), List.length_map,
          Nat.add_sub_cancel_left]
        rcases l with - | - | l
        · simp [Instr.dst?, eq_comm]
        · simp [Instr.dst?]
        · simp
    · rw [hc.body_other c hcl]
      exact ⟨.inl, fun h => h.elim id fun h => absurd h.1.1 hcl⟩

/-- The only new variable that is read is the new one. -/
theorem reads (hc : CopyAdded p p' b k j loc x init) {v : Var} (hv : p'.Reads v) :
    p.Reads v ∨ v = p.vars.size := by
  rcases hv with ⟨c, i, hi, hv⟩ | ⟨c, φ', hφ', hv⟩
  · by_cases hcl : c = loc
    · subst hcl
      rw [hc.body_new, List.mem_append] at hi
      rcases hi with hi | hi
      · refine .inl (.inl ⟨c, i, ?_, hv⟩)
        rw [hc.body_old]
        exact List.mem_append_left _ hi
      · rcases List.mem_cons.1 hi with rfl | hi
        · rw [List.mem_singleton.1 hv]
          exact .inl hc.reads_operand
        · rw [List.mem_singleton.1 hi] at hv
          exact absurd hv List.not_mem_nil
    · rw [hc.body_other c hcl] at hi
      exact .inl (.inl ⟨c, i, hi, hv⟩)
  · obtain ⟨l, hl⟩ := List.mem_iff_getElem?.1 hφ'
    obtain ⟨φ, hφ, -, -, hargs⟩ := hc.phi_of hl
    obtain ⟨⟨s, y'⟩, hy', rfl⟩ := List.mem_map.1 hv
    obtain ⟨y, hy, rfl | ⟨-, -, -, hnew⟩⟩ := hargs s y' hy'
    · exact .inl (.inr ⟨c, φ, List.mem_of_getElem? hφ, List.mem_map.2 ⟨_, hy, rfl⟩⟩)
    · exact .inr hnew

theorem wellFormed (hc : CopyAdded p p' b k j loc x init) (h : p.WellFormed n) :
    p'.WellFormed n where
  indexed := hc.indexed h.indexed
  entry := hc.size ▸ h.entry
  params := by
    rw [hc.vars, Array.size_push]
    exact Nat.lt_succ_of_lt h.params
  slots i v hv := by
    rw [hc.vars, Array.getElem?_push] at hv
    split at hv
    · next hi =>
      cases hv
      exact ⟨hi.symm, rfl⟩
    · exact h.slots i v hv
  closed c hlt := by
    rw [hc.size] at hlt
    by_cases hcl : c = loc
    · subst hcl
      refine ⟨init ++ [.copy p.vars.size x], .jump b, ?_, rfl, ?_⟩
      · rw [hc.body_new, List.append_assoc]
        rfl
      · intro i hi
        rcases List.mem_append.1 hi with hi | hi
        · exact hc.not_isTerminator h hi
        · rw [List.mem_singleton.1 hi]
          rfl
    · rw [hc.body_other c hcl]
      exact h.closed c hlt
  targets_lt c t ht := by
    rw [hc.targets] at ht
    rw [hc.size]
    exact h.targets_lt c t ht
  defines_lt d v hdef := by
    rw [hc.vars, Array.size_push]
    rcases hc.defines_iff.1 hdef with hdef | ⟨-, rfl⟩
    · exact Nat.lt_succ_of_lt (h.defines_lt d v hdef)
    · exact Nat.lt_succ_self _
  once d d' v hdef hdef' := by
    -- nothing defined the new variable before
    have hold : ∀ d, ¬ p.Defines n d p.vars.size := fun d hdef =>
      absurd (h.defines_lt d _ hdef) (Nat.lt_irrefl _)
    rcases hc.defines_iff.1 hdef with hdef | ⟨rfl, rfl⟩ <;>
      rcases hc.defines_iff.1 hdef' with hdef' | ⟨rfl, hv⟩
    · exact h.once d d' v hdef hdef'
    · exact absurd (hv ▸ hdef) (hold d)
    · exact absurd hdef' (hold d')
    · rfl
  defined v hv := by
    rcases hc.reads hv with hv | rfl
    · obtain ⟨d, hdef⟩ := h.defined v hv
      exact ⟨d, hc.defines_iff.2 (.inl hdef)⟩
    · exact ⟨_, hc.defines_iff.2 (.inr ⟨rfl, rfl⟩)⟩
  entry_phis := hc.toRewires.entry_phis h
  phi_args := hc.toRewires.phi_args h hc.edge_iff

/-! ### Nothing else can be observed -/

theorem trims (hc : CopyAdded p p' b k j loc x init) (h : p.WellFormed n) :
    Trims (· = p.vars.size) p p' := by
  have hreads : ∀ c, ∀ i ∈ p.body c, ∀ v ∈ i.reads, ¬ v = p.vars.size := fun c i hi v hv =>
    Nat.ne_of_lt (h.reads_lt (.inl ⟨c, i, hi, hv⟩))
  refine ⟨hc.size.symm, fun c => ?_, fun c => (hc.receivers c).symm, ?_⟩
  · by_cases hcl : c = loc
    · have hinit := hreads loc
      rw [hc.body_old] at hinit
      rw [hcl, hc.body_old, hc.body_new]
      refine (Trimmed.refl fun i hi => hinit i (List.mem_append_left _ hi)).append ?_
      exact .skip rfl (Trimmed.refl fun i hi => hinit i (List.mem_append_right _ hi))
    · rw [hc.body_other c hcl]
      exact Trimmed.refl (hreads c)
  · intro s c l φ φ' y y' hφ hφ' hy hy'
    have hmem := List.mem_of_getElem? hφ
    refine ⟨Nat.ne_of_lt (h.arg_lt hmem hy), ?_⟩
    obtain ⟨ψ, hψ, -, -, hargs⟩ := hc.phi_of hφ'
    cases hφ.symm.trans hψ
    obtain ⟨z, hz, rfl | ⟨rfl, rfl, rfl, rfl⟩⟩ := hargs s y' hy'
    · exact .inl (h.arg_unique hmem hz hy)
    · obtain rfl := h.arg_unique hmem hz hy
      refine .inr ⟨init, [.jump c], hc.body_new, hc.ne_operand h,
        fun i hi => hc.not_isTerminator h hi, fun i hi => ?_⟩
      rw [List.mem_singleton.1 hi]
      refine ⟨?_, ?_⟩ <;> rintro ⟨⟩

/-! ### Nothing becomes live -/

/-- An instruction of the new program is an old one in its old place, or the copy, or the jump
behind the copy. -/
theorem instr_cases (hc : CopyAdded p p' b k j loc x init) {c : Label} {l : Nat} {i : Instr}
    (hi : (p'.body c)[l]? = some i) :
    ¬(c = loc ∧ init.length ≤ l) ∧ (p.body c)[l]? = some i ∨
      c = loc ∧ l = init.length ∧ i = .copy p.vars.size x ∨
      c = loc ∧ l = init.length + 1 ∧ i = .jump b := by
  by_cases hcl : c = loc
  swap
  · rw [hc.body_other c hcl] at hi
    exact .inl ⟨fun h => hcl h.1, hi⟩
  subst hcl
  rw [hc.body_new] at hi
  rcases Nat.lt_or_ge l init.length with hlt | hge
  · rw [List.getElem?_append_left hlt] at hi
    refine .inl ⟨fun h => absurd h.2 (Nat.not_le.2 hlt), ?_⟩
    rw [hc.body_old, List.getElem?_append_left hlt, hi]
  · obtain ⟨l, rfl⟩ := Nat.exists_eq_add_of_le hge
    rw [List.getElem?_append_right hge, Nat.add_sub_cancel_left] at hi
    rcases l with - | - | l
    · cases hi
      exact .inr (.inl ⟨rfl, rfl, rfl⟩)
    · cases hi
      exact .inr (.inr ⟨rfl, rfl, rfl⟩)
    · cases hi

/-- The position in the old program of a position in the new one. -/
def oldPos (loc : Label) (init : List Instr) (c : Label) (l : Nat) : Nat :=
  if c = loc ∧ init.length < l then l - 1 else l

theorem oldPos_length (hc : CopyAdded p p' b k j loc x init) (c : Label) :
    oldPos loc init c (p'.body c).length = (p.body c).length := by
  unfold oldPos
  by_cases hcl : c = loc
  · rw [hcl, hc.body_old, hc.body_new]
    simp
  · rw [if_neg (fun h => hcl h.1), hc.body_other c hcl]

theorem oldPos_of_not {c : Label} {l : Nat} (h : ¬(c = loc ∧ init.length < l)) :
    oldPos loc init c l = l := if_neg h

theorem oldPos_succ {l : Nat} (h : init.length ≤ l) : oldPos loc init loc (l + 1) = l :=
  if_pos ⟨rfl, Nat.lt_succ_of_le h⟩

/-- The old jump passes on what is live behind it. -/
theorem live_jump (hc : CopyAdded p p' b k j loc x init) {v : Var}
    (hv : p.Live loc (init.length + 1) v) : p.Live loc init.length v := by
  refine .pass (i := .jump b) ?_ (by rintro ⟨⟩) hv
  rw [hc.body_old, List.getElem?_concat_length]

/-- The new variable is live only between its copy and the end of the block, and nothing else
is live where it was not before. -/
theorem live (hc : CopyAdded p p' b k j loc x init) (h : p.WellFormed n) {c : Label} {l : Nat}
    {v : Var} (hv : p'.Live c l v) :
    (v = p.vars.size → c = loc ∧ init.length < l) ∧
      (v ≠ p.vars.size → p.Live c (oldPos loc init c l) v) := by
  have hlen : (p.body loc).length = init.length + 1 := by
    rw [hc.body_old, List.length_append, List.length_singleton]
  induction hv with
  | @read c l i v hi hv =>
    rcases hc.instr_cases hi with ⟨hnot, hold⟩ | ⟨rfl, rfl, rfl⟩ | ⟨rfl, rfl, rfl⟩
    · have hne := Nat.ne_of_lt (h.reads_lt (.inl ⟨c, i, List.mem_of_getElem? hold, hv⟩))
      refine ⟨fun heq => absurd heq hne, fun _ => ?_⟩
      rw [oldPos_of_not fun h => hnot ⟨h.1, Nat.le_of_lt h.2⟩]
      exact .read hold hv
    · -- the copy reads what the phi read at the end of the block
      obtain rfl : v = x := List.mem_singleton.1 hv
      refine ⟨fun heq => absurd heq.symm (hc.ne_operand h), fun _ => ?_⟩
      rw [oldPos_of_not fun h => absurd h.2 (Nat.lt_irrefl _)]
      obtain ⟨φ, hφ, harg⟩ := hc.site
      refine hc.live_jump (.arrive hlen.symm (hc.edge h) (List.mem_of_getElem? hφ) ?_)
      exact List.mem_of_getElem? harg
    · exact absurd hv List.not_mem_nil
  | @pass c l i v hi hdst _ ih =>
    rcases hc.instr_cases hi with ⟨hnot, hold⟩ | ⟨rfl, rfl, rfl⟩ | ⟨rfl, rfl, rfl⟩
    · have hnot' : ¬(c = loc ∧ init.length < l + 1) := fun h =>
        hnot ⟨h.1, Nat.le_of_lt_succ h.2⟩
      refine ⟨fun heq => absurd (ih.1 heq) hnot', fun hne => ?_⟩
      have hnext := ih.2 hne
      rw [oldPos_of_not hnot'] at hnext
      rw [oldPos_of_not fun h => hnot ⟨h.1, Nat.le_of_lt h.2⟩]
      exact .pass hold hdst hnext
    · refine ⟨fun heq => absurd (congrArg some heq.symm) hdst, fun hne => ?_⟩
      have hnext := ih.2 hne
      rw [oldPos_succ (Nat.le_refl _)] at hnext
      rw [oldPos_of_not fun h => absurd h.2 (Nat.lt_irrefl _)]
      exact hnext
    · refine ⟨fun _ => ⟨rfl, Nat.lt_succ_self _⟩, fun hne => ?_⟩
      have hnext := ih.2 hne
      rw [oldPos_succ (Nat.le_succ _)] at hnext
      rw [oldPos_succ (Nat.le_refl _)]
      exact hc.live_jump hnext
  | @cross c d l v hl he hrec _ ih =>
    rw [hl, hc.oldPos_length]
    refine ⟨fun heq => absurd (ih.1 heq).2 (Nat.not_lt_zero _), fun hne => ?_⟩
    have hnext := ih.2 hne
    rw [oldPos_of_not fun h => absurd h.2 (Nat.not_lt_zero _)] at hnext
    rw [hc.receivers] at hrec
    exact .cross rfl (hc.edge_iff.1 he) hrec hnext
  | @arrive c d l φ' v hl he hφ' ha =>
    obtain ⟨m, hm⟩ := List.mem_iff_getElem?.1 hφ'
    obtain ⟨φ, hφ, -, -, hargs⟩ := hc.phi_of hm
    have hφ := List.mem_of_getElem? hφ
    rw [hl, hc.oldPos_length]
    obtain ⟨y, hy, rfl | ⟨-, rfl, -, rfl⟩⟩ := hargs c v ha
    · have hne := Nat.ne_of_lt (h.arg_lt hφ hy)
      exact ⟨fun heq => absurd heq hne, fun _ => .arrive rfl (hc.edge_iff.1 he) hφ hy⟩
    · refine ⟨fun _ => ⟨rfl, ?_⟩, fun hne => absurd rfl hne⟩
      rw [hc.body_new, List.length_append]
      exact Nat.lt_add_of_pos_right (Nat.succ_pos _)

/-- **A copy for an operand changes nothing that matters.** -/
theorem refines (hc : CopyAdded p p' b k j loc x init) (h : p.WellFormed n) : Refines n p p' where
  wellFormed := hc.wellFormed h
  behavior w args := (hc.trims h).sameBehavior h (hc.wellFormed h) w args
  entered he v hv := by
    obtain ⟨hnew, hold⟩ := hc.live h hv
    by_cases hvt : v = p.vars.size
    · exact absurd (hnew hvt).2 (Nat.not_lt_zero _)
    · have hlive := hold hvt
      rw [oldPos_of_not fun h => absurd h.2 (Nat.not_lt_zero _)] at hlive
      exact he v hlive

end CopyAdded

end Program

end ChordalAlloc
