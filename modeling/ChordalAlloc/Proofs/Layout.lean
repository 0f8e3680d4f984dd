/-
ChordalAlloc/Proofs/Layout.lean

How a program looks while its phis are lowered.

All that lowering does to a program can be read off three things: the edges
that got a block, in the order of these blocks, the copies on the way from
one block to another, and for each operand of a phi the variable that it
reads instead (`Edits`).  `Edits.Laid` says what the program is then: a block
has its instructions, followed by the copies if it ends in a jump, and its
terminator names the blocks on edges where there are any.

A step of lowering puts a block on an edge (`Edits.Laid.addBlock`), or a copy
into the block at the end of a way (`Edits.Laid.addCopy`).
-/
import ChordalAlloc.Proofs.Routing

namespace ChordalAlloc

open Program

/-! ### Other targets -/

namespace Instr

/-- Go to `f t` wherever the instruction goes to `t`. -/
def reroute (f : Label → Label) : Instr → Instr
  | jump t => jump (f t)
  | branch c t e => branch c (f t) (f e)
  | switch v ts d => switch v (ts.map f) (f d)
  | i => i

@[simp] theorem targets_reroute (i : Instr) (f : Label → Label) :
    (i.reroute f).targets = i.targets.map f := by
  cases i <;> simp [reroute, targets]

@[simp] theorem isTerminator_reroute (i : Instr) (f : Label → Label) :
    (i.reroute f).isTerminator = i.isTerminator := by
  cases i <;> rfl

theorem redirect_reroute (i : Instr) (f : Label → Label) (old new : Label) :
    (i.reroute f).redirect old new = i.reroute fun t => (f t).redirect old new := by
  cases i <;> simp [reroute, redirect]

theorem reroute_id (i : Instr) : i.reroute id = i := by
  cases i <;> simp [reroute]

theorem reroute_ne_jump {i : Instr} (h : ∀ t, i ≠ jump t) (f : Label → Label) (t : Label) :
    i.reroute f ≠ jump t := by
  cases i with
  | jump x => exact absurd rfl (h x)
  | _ => exact nofun

end Instr

theorem modify_concat {α : Type} (l : List α) (x : α) (f : α → α) :
    (l ++ [x]).modify ((l ++ [x]).length - 1) f = l ++ [f x] := by
  rw [List.length_append, List.length_singleton, Nat.add_sub_cancel]
  induction l with
  | nil => rfl
  | cons y l ih => exact congrArg (y :: ·) ih

/-! ### Blocks on edges -/

namespace Program

/-- The edge has to get a block: phis are read at its end, and other edges start where it does. -/
def Splits (p : Program) (s b : Label) : Prop :=
  p.Edge s b ∧ p.phis b ≠ [] ∧ ∀ t, (p.body s).getLast? ≠ some (.jump t)

/-- An operand comes over an edge. -/
theorem WellFormed.edge_of_arg {p : Program} {n : Nat} (h : p.WellFormed n) {t : Site} {a : PhiArg}
    (ha : p.argAt? t = some a) : p.Edge a.source t.block := by
  obtain ⟨φ, hφ, harg⟩ := phi_of_site ha
  exact ((h.phi_args _ φ (List.mem_of_getElem? hφ)).2 _).1
    (List.mem_map_of_mem (List.mem_of_getElem? harg))

/-- If the edge of an operand needs no block, it starts at a jump. -/
theorem WellFormed.jump_of_not_splits {p : Program} {n : Nat} (h : p.WellFormed n) {t : Site}
    {a : PhiArg} (ha : p.argAt? t = some a) (hs : ¬ p.Splits a.source t.block) :
    ∃ init, p.body a.source = init ++ [.jump t.block] := by
  have hedge := h.edge_of_arg ha
  obtain ⟨init, i, hbody, -⟩ := h.closed _ hedge.lt_size
  have hphis : p.phis t.block ≠ [] := by
    obtain ⟨φ, hφ, -⟩ := phi_of_site ha
    exact List.ne_nil_of_mem (List.mem_of_getElem? hφ)
  obtain ⟨x, hx⟩ : ∃ x, (p.body a.source).getLast? = some (.jump x) := by
    by_contra hno
    exact hs ⟨hedge, hphis, fun x hx => hno ⟨x, hx⟩⟩
  have htarget := hedge.1
  rw [targets, hx] at htarget
  obtain rfl : t.block = x := List.mem_singleton.1 htarget
  rw [hbody, List.getLast?_concat] at hx
  exact ⟨init, Option.some.inj hx ▸ hbody⟩

theorem receivers_setArg {p : Program} {b : Label} (k j : Nat) (a : PhiArg) (c : Label) :
    (p.setArg b k j a).receivers c = p.receivers c := by
  rw [receivers, phis_setArg]
  split
  · apply List.ext_getElem?
    intro m
    rw [List.getElem?_map, List.getElem?_modify, receivers, List.getElem?_map]
    rcases (p.phis c)[m]? with - | φ
    · rfl
    · by_cases hkm : k = m <;> simp [hkm]
  · rfl

/-- The block on an edge, if the given edges have got one each, in order. -/
def between (p : Program) (split : List (Label × Label)) (s b : Label) : Option Label :=
  if (s, b) ∈ split then some (p.blocks.size + split.idxOf (s, b)) else none

section Between

variable {p : Program} {split : List (Label × Label)} {s b s' b' : Label} {e : Nat}

theorem between_eq_none (h : (s, b) ∉ split) : p.between split s b = none := if_neg h

theorem between_bounds (h : p.between split s b = some e) :
    (s, b) ∈ split ∧ p.blocks.size ≤ e ∧ e < p.blocks.size + split.length := by
  unfold between at h
  split at h
  · next hmem =>
    cases h
    exact ⟨hmem, Nat.le_add_right _ _, Nat.add_lt_add_left (List.idxOf_lt_length_of_mem hmem) _⟩
  · cases h

/-- An edge has a block of its own. -/
theorem between_inj (h : p.between split s b = some e) (h' : p.between split s' b' = some e) :
    s = s' ∧ b = b' := by
  have hmem := (between_bounds h).1
  rw [between, if_pos hmem] at h
  rw [between, if_pos (between_bounds h').1] at h'
  have heq : split.idxOf (s, b) = split.idxOf (s', b') :=
    Nat.add_left_cancel (Option.some.inj (h.trans h'.symm))
  exact Prod.mk.inj ((List.idxOf_inj hmem).1 heq)

/-- Every block beyond the old ones is on an edge. -/
theorem exists_between (hnodup : split.Nodup) (hge : p.blocks.size ≤ e)
    (hlt : e < p.blocks.size + split.length) : ∃ s b, p.between split s b = some e := by
  have hi : e - p.blocks.size < split.length := by omega
  refine ⟨split[e - p.blocks.size].1, split[e - p.blocks.size].2, ?_⟩
  rw [between, if_pos (List.getElem_mem hi), List.Nodup.idxOf_getElem hnodup _ hi]
  exact congrArg some (Nat.add_sub_cancel' hge)

theorem between_append (hnew : (s', b') ∉ split) : p.between (split ++ [(s', b')]) s b =
    if s = s' ∧ b = b' then some (p.blocks.size + split.length) else p.between split s b := by
  by_cases heq : s = s' ∧ b = b'
  · obtain ⟨rfl, rfl⟩ := heq
    rw [if_pos ⟨rfl, rfl⟩, between, if_pos (List.mem_append_right _ List.mem_cons_self),
      List.idxOf_append_of_notMem hnew, List.idxOf_cons_self]
    rfl
  · rw [if_neg heq, between, between]
    by_cases hmem : (s, b) ∈ split
    · rw [if_pos hmem, if_pos (List.mem_append_left _ hmem), List.idxOf_append_of_mem hmem]
    · rw [if_neg hmem, if_neg]
      simp [hmem, heq]

end Between

end Program

/-! ### All edits -/

/-- What lowering has done to a program. -/
structure Edits where
  /-- The edges that got a block, in the order of these blocks. -/
  split : List (Label × Label) := []
  /-- The copies on the way from one block to another. -/
  code : Label → Label → List Instr := fun _ _ => []
  /-- The variable that the entry of a phi reads in place of its operand. -/
  read : Site → Option Var := fun _ => none

namespace Edits

/-- The block at the end of the way from `s` to `b`. -/
def location (E : Edits) (p : Program) (s b : Label) : Label := (p.between E.split s b).getD s

/-- The block that `s` names where it goes to `b`. -/
def target (E : Edits) (p : Program) (s b : Label) : Label := (p.between E.split s b).getD b

/-- What comes before the terminator of `s`. -/
def ahead (E : Edits) (s : Label) : Instr → List Instr
  | .jump b => E.code s b
  | _ => []

/-- What is seen of the entry of a phi. -/
def shown (E : Edits) (p : Program) (t : Site) (a : PhiArg) : PhiArg :=
  match E.read t with
  | none => a
  | some y => ⟨E.location p a.source t.block, y⟩

theorem shown_of_none {E : Edits} {t : Site} (h : E.read t = none) (p : Program) (a : PhiArg) :
    E.shown p t a = a := by
  rw [shown, h]

theorem shown_of_some {E : Edits} {t : Site} {y : Var} (h : E.read t = some y) (p : Program)
    (a : PhiArg) : E.shown p t a = ⟨E.location p a.source t.block, y⟩ := by
  rw [shown, h]

theorem ahead_of_ne (E : Edits) (s : Label) {t : Instr} (h : ∀ x, t ≠ .jump x) :
    E.ahead s t = [] := by
  cases t with
  | jump x => exact absurd rfl (h x)
  | _ => rfl

/-- The program `q` is `p` with the edits. -/
structure Laid (E : Edits) (p q : Program) : Prop where
  nodup : E.split.Nodup
  splits : ∀ s b, (s, b) ∈ E.split → p.Splits s b
  size : q.blocks.size = p.blocks.size + E.split.length
  indexed : q.Indexed
  receivers : ∀ b, q.receivers b = p.receivers b
  old : ∀ s init t, p.body s = init ++ [t] →
    q.body s = init ++ E.ahead s t ++ [t.reroute (E.target p s)]
  new : ∀ s b e, p.between E.split s b = some e → q.body e = E.code s b ++ [.jump b]
  args : ∀ t, q.argAt? t = (p.argAt? t).map (E.shown p t)
  /-- A way that was in use has got its block. -/
  settled : ∀ t a, (E.read t).isSome = true → p.argAt? t = some a →
    p.Splits a.source t.block → (a.source, t.block) ∈ E.split
  /-- There are no copies for an edge that has yet to get its block. -/
  idle : ∀ s b, p.Splits s b → (s, b) ∉ E.split → E.code s b = []

/-- Nothing was done yet. -/
theorem laid_start {p : Program} (hp : p.Indexed) : ({} : Edits).Laid p p where
  nodup := List.nodup_nil
  splits _ _ h := absurd h List.not_mem_nil
  size := rfl
  indexed := hp
  receivers _ := rfl
  old s init t hs := by
    have htarget : ({} : Edits).target p s = id := rfl
    have hahead : ({} : Edits).ahead s t = [] := by cases t <;> rfl
    rw [hs, htarget, Instr.reroute_id, hahead, List.append_nil]
  new _ _ _ h := nomatch h
  args t := by
    rcases p.argAt? t with - | a <;> rfl
  settled _ _ h := nomatch h
  idle _ _ _ _ := rfl

/-- One more edge has got a block. -/
def addBlock (E : Edits) (s b : Label) : Edits := { E with split := E.split ++ [(s, b)] }

/-- One more copy, of `x` to `y`, is on the way from `s`, for the entry `t` to read. -/
def addCopy (E : Edits) (t : Site) (s : Label) (y x : Var) : Edits :=
  { E with
    code := fun s' b' =>
      if s' = s ∧ b' = t.block then E.code s' b' ++ [.copy y x] else E.code s' b'
    read := fun t' => if t' = t then some y else E.read t' }

variable {E : Edits} {p : Program} {s b : Label}

theorem location_addBlock (hnew : (s, b) ∉ E.split) {s' b' : Label} (h : ¬(s' = s ∧ b' = b)) :
    (E.addBlock s b).location p s' b' = E.location p s' b' := by
  rw [location, addBlock, between_append hnew, if_neg h]
  rfl

/-- The terminator of the source of the edge names the new block where it named the target. -/
theorem target_addBlock (hnew : (s, b) ∉ E.split) (hb : b < p.blocks.size) (t : Label) :
    (E.addBlock s b).target p s t =
      (E.target p s t).redirect b (p.blocks.size + E.split.length) := by
  rw [target, addBlock, between_append hnew, target, Label.redirect]
  by_cases ht : t = b
  · subst ht
    rw [if_pos ⟨rfl, rfl⟩, between_eq_none hnew]
    exact (if_pos rfl).symm
  · rw [if_neg fun h => ht h.2, if_neg]
    rcases hvia : p.between E.split s t with - | e
    · exact ht
    · have := (between_bounds hvia).2.1
      exact Nat.ne_of_gt (Nat.lt_of_lt_of_le hb this)

theorem target_addBlock_of_ne (hnew : (s, b) ∉ E.split) {c : Label} (hc : c ≠ s) :
    (E.addBlock s b).target p c = E.target p c := by
  funext t
  rw [target, addBlock, between_append hnew, if_neg fun h => hc h.1]
  rfl

namespace Laid

theorem lt_size {q : Program} (h : E.Laid p q) {c : Label} (hc : c < p.blocks.size) :
    c < q.blocks.size := by
  rw [h.size]
  exact Nat.lt_of_lt_of_le hc (Nat.le_add_right _ _)

/-- An operand is as it was as long as its edge has yet to get a block. -/
theorem read_eq_none {q : Program} {t : Site} {a : PhiArg} (h : E.Laid p q)
    (ha : p.argAt? t = some a) (hs : p.Splits a.source t.block)
    (hnew : (a.source, t.block) ∉ E.split) : E.read t = none := by
  rcases hread : E.read t with - | y
  · rfl
  · exact absurd (h.settled t a (by rw [hread]; rfl) ha hs) hnew

section AddBlock

variable {l : Lowering} (h : E.Laid p l.program) (hs : p.Splits s b) (hnew : (s, b) ∉ E.split)

include h hs hnew

/-- Of the old blocks, the source of the edge goes to the new one. -/
theorem old_addBlock {c : Label} {init : List Instr} {t : Instr} (hc : p.body c = init ++ [t]) :
    (l.detour s b).program.body c =
      init ++ E.ahead c t ++ [t.reroute ((E.addBlock s b).target p c)] := by
  have hlt := h.lt_size hs.1.lt_size
  rw [Lowering.body_detour hlt]
  by_cases hcs : c = s
  · subst hcs
    rw [if_pos rfl, h.old c init t hc, modify_concat, Instr.redirect_reroute, h.size,
      funext (target_addBlock hnew hs.1.2)]
  · have hclt : c < p.blocks.size := lt_size_of_getLast? (by rw [hc, List.getLast?_concat])
    have hne : c ≠ l.program.blocks.size := by
      rw [h.size]
      exact Nat.ne_of_lt (Nat.lt_of_lt_of_le hclt (Nat.le_add_right _ _))
    rw [if_neg hcs, if_neg hne, h.old c init t hc, target_addBlock_of_ne hnew hcs]

/-- The new block has no copies yet. -/
theorem new_addBlock {c d e : Label} (hvia : p.between (E.addBlock s b).split c d = some e) :
    (l.detour s b).program.body e = E.code c d ++ [.jump d] := by
  have hlt := h.lt_size hs.1.lt_size
  rw [Edits.addBlock, between_append hnew] at hvia
  rw [Lowering.body_detour hlt]
  split at hvia
  · next heq =>
    obtain ⟨rfl, rfl⟩ := heq
    cases hvia
    rw [← h.size, if_neg (Nat.ne_of_gt hlt), if_pos rfl, h.idle c d hs hnew]
    rfl
  · obtain ⟨-, hge, hlt'⟩ := between_bounds hvia
    rw [if_neg (Nat.ne_of_gt (Nat.lt_of_lt_of_le hs.1.lt_size hge)),
      if_neg (Nat.ne_of_lt (h.size.symm ▸ hlt'))]
    exact h.new c d e hvia

/-- The new block is on none of the ways in use. -/
theorem args_addBlock (t : Site) :
    (l.detour s b).program.argAt? t = (p.argAt? t).map ((E.addBlock s b).shown p t) := by
  rw [argAt?_congr (Lowering.phis_detour l s b), h.args]
  rcases ha : p.argAt? t with - | a
  · rfl
  · rw [Option.map_some, Option.map_some]
    rcases hread : E.read t with - | y
    · have hread' : (E.addBlock s b).read t = none := hread
      rw [shown_of_none hread, shown_of_none hread']
    · have hread' : (E.addBlock s b).read t = some y := hread
      have hne : ¬(a.source = s ∧ t.block = b) := by
        rintro ⟨rfl, rfl⟩
        rw [h.read_eq_none ha hs hnew] at hread
        cases hread
      rw [shown_of_some hread, shown_of_some hread', location_addBlock hnew hne]

/-- A block on an edge that has to get one. -/
theorem addBlock : (E.addBlock s b).Laid p (l.detour s b).program where
  nodup := by
    refine List.nodup_append.2 ⟨h.nodup, List.nodup_singleton _, fun x hx y hy => ?_⟩
    rintro rfl
    exact hnew (List.mem_singleton.1 hy ▸ hx)
  splits c d hmem := by
    rcases List.mem_append.1 hmem with hmem | hmem
    · exact h.splits c d hmem
    · cases List.mem_singleton.1 hmem
      exact hs
  size := by
    rw [Lowering.size_detour, h.size]
    simp [Edits.addBlock, Nat.add_assoc]
  indexed := by
    rw [indexed_iff_label?]
    intro c x hx
    rw [Lowering.label?_detour] at hx
    split at hx
    · exact (Option.some.inj hx).symm
    · exact indexed_iff_label?.1 h.indexed c x hx
  receivers c := by
    rw [Program.receivers, Lowering.phis_detour]
    exact h.receivers c
  old _ _ _ := h.old_addBlock hs hnew
  new _ _ _ := h.new_addBlock hs hnew
  args := h.args_addBlock hs hnew
  settled t a hread ha hsplit := List.mem_append_left _ (h.settled t a hread ha hsplit)
  idle c d hsplit hmem := h.idle c d hsplit fun hmem' => hmem (List.mem_append_left _ hmem')

end AddBlock

variable {q q' : Program} {t : Site} {a : PhiArg}

/-- A way that needs no block, or has one, ends before a jump. -/
theorem body_location {n : Nat} (h : E.Laid p q) (hp : p.WellFormed n) (ha : p.argAt? t = some a)
    (hsettled : p.Splits a.source t.block → (a.source, t.block) ∈ E.split) :
    ∃ init, q.body (E.location p a.source t.block) = init ++ [.jump t.block] := by
  by_cases hmem : (a.source, t.block) ∈ E.split
  · refine ⟨E.code a.source t.block, ?_⟩
    have hvia : p.between E.split a.source t.block = some _ := if_pos hmem
    rw [location, hvia]
    exact h.new a.source t.block _ hvia
  · obtain ⟨init, hbody⟩ := hp.jump_of_not_splits ha fun hs => hmem (hsettled hs)
    refine ⟨init ++ E.code a.source t.block, ?_⟩
    rw [location, between_eq_none hmem, Option.getD_none, h.old _ init _ hbody]
    simp [ahead, Instr.reroute, target, between_eq_none hmem]

/-- Phis of which no operand was changed are as they were. -/
theorem phis_eq (h : E.Laid p q) (hread : ∀ t, t.block = b → E.read t = none) :
    q.phis b = p.phis b := by
  apply List.ext_getElem?
  intro k
  have hdst : (q.phis b)[k]?.map (·.dst) = (p.phis b)[k]?.map (·.dst) := by
    rw [← List.getElem?_map, ← List.getElem?_map]
    exact congrArg (·[k]?) (h.receivers b)
  have hargs : ∀ j, q.argAt? ⟨b, k, j⟩ = p.argAt? ⟨b, k, j⟩ := by
    intro j
    rw [h.args]
    rcases p.argAt? ⟨b, k, j⟩ with - | a
    · rfl
    · rw [Option.map_some, shown_of_none (hread _ rfl)]
  rcases hq : (q.phis b)[k]? with - | φ <;> rcases hψ : (p.phis b)[k]? with - | ψ
  · rfl
  · rw [hq, hψ] at hdst
    cases hdst
  · rw [hq, hψ] at hdst
    cases hdst
  · rw [hq, hψ] at hdst
    have heq : φ.args = ψ.args := by
      apply List.ext_getElem?
      intro j
      have := hargs j
      rw [argAt?, argAt?, phiArg?_eq, phiArg?_eq] at this
      simpa only [hq, hψ, Option.bind_some] using this
    obtain ⟨d, as⟩ := φ
    obtain ⟨d', as'⟩ := ψ
    cases Option.some.inj hdst
    cases heq
    rfl

section AddCopy

variable {n : Nat} {init : List Instr} (h : E.Laid p q) (hp : p.WellFormed n)
  (ha : p.argAt? t = some a)
  (hsettled : p.Splits a.source t.block → (a.source, t.block) ∈ E.split)
  (hi : Lowering.Inserted q q' t.block (E.location p a.source t.block) (E.shown p t a).value init)

include h hp ha hi

/-- Of the new blocks, the one at the end of the way has the copy. -/
theorem new_addCopy {c d e : Label} (hvia : p.between E.split c d = some e) : q'.body e =
    (E.addCopy t a.source q.vars.size (E.shown p t a).value).code c d ++ [.jump d] := by
  have hnew := h.new c d e hvia
  by_cases hcd : c = a.source ∧ d = t.block
  · obtain ⟨rfl, rfl⟩ := hcd
    have heq : e = E.location p a.source t.block := by rw [location, hvia]; rfl
    have hinit := hi.body_old
    rw [← heq, hnew] at hinit
    rw [heq, hi.body_new, ← (List.append_inj' hinit rfl).1]
    simp [Edits.addCopy]
  · have hne : e ≠ E.location p a.source t.block := by
      intro heq
      rcases hat : p.between E.split a.source t.block with - | e'
      · rw [location, hat] at heq
        exact Nat.ne_of_gt (Nat.lt_of_lt_of_le (hp.edge_of_arg ha).lt_size
          (between_bounds hvia).2.1) heq
      · rw [location, hat] at heq
        exact hcd (between_inj hvia (heq ▸ hat))
    rw [hi.body_other e hne, hnew]
    simp only [Edits.addCopy, if_neg hcd]

include hsettled

/-- Of the old blocks, the source has the copy if it ends in a jump. -/
theorem old_addCopy {c : Label} {pre : List Instr} {i : Instr} (hc : p.body c = pre ++ [i]) :
    q'.body c = pre ++ (E.addCopy t a.source q.vars.size (E.shown p t a).value).ahead c i
      ++ [i.reroute (E.target p c)] := by
  have hold := h.old c pre i hc
  have hclt : c < p.blocks.size := lt_size_of_getLast? (by rw [hc, List.getLast?_concat])
  by_cases heq : c = E.location p a.source t.block
  · -- the way ends in an old block, so it is the source, which leads nowhere else
    have hnone : (a.source, t.block) ∉ E.split := by
      intro hmem
      have hvia : p.between E.split a.source t.block = some _ := if_pos hmem
      rw [heq, location, hvia] at hclt
      exact Nat.not_lt_of_le (between_bounds hvia).2.1 hclt
    have hcs : c = a.source := by
      rw [heq, location, between_eq_none hnone]
      rfl
    obtain ⟨pre', hjump⟩ := hp.jump_of_not_splits ha fun hs => hnone (hsettled hs)
    rw [← hcs, hc] at hjump
    obtain ⟨rfl, hlast⟩ := List.append_inj' hjump rfl
    obtain rfl := List.singleton_inj.1 hlast
    have hinit := hi.body_old
    rw [← heq, hold] at hinit
    rw [heq, hi.body_new, ← (List.append_inj' hinit rfl).1, ← heq]
    simp [ahead, Edits.addCopy, hcs, Instr.reroute, target, between_eq_none hnone]
  · rw [hi.body_other c heq, hold]
    cases i with
    | jump d =>
      -- a source that ends in a jump has no block on its edge, so the way ends in it
      have hne : ¬(c = a.source ∧ d = t.block) := by
        rintro ⟨rfl, rfl⟩
        refine heq ?_
        rw [location, between_eq_none]
        · rfl
        · intro hmem
          refine (h.splits _ _ hmem).2.2 t.block ?_
          rw [hc, List.getLast?_concat]
      simp only [ahead, Edits.addCopy, if_neg hne]
    | _ => rfl

omit hp hsettled in
theorem args_addCopy (t' : Site) :
    (q'.setArg t.block t.phi t.arg ⟨E.location p a.source t.block, q.vars.size⟩).argAt? t' =
      (p.argAt? t').map
        ((E.addCopy t a.source q.vars.size (E.shown p t a).value).shown p t') := by
  have hcur : q.argAt? t = some (E.shown p t a) := by rw [h.args, ha, Option.map_some]
  refine (hi.argAt? hcur t').trans ?_
  by_cases heq : t' = t
  · subst heq
    rw [if_pos rfl, ha, Option.map_some, shown_of_some (if_pos rfl)]
    rfl
  · rw [if_neg heq]
    refine (h.args t').trans (congrArg (Option.map · (p.argAt? t')) (funext fun a' => ?_))
    simp only [shown, Edits.addCopy, if_neg heq]
    rfl

/-- A copy at the end of a way that needs no block, or has one. -/
theorem addCopy : (E.addCopy t a.source q.vars.size (E.shown p t a).value).Laid p
    (q'.setArg t.block t.phi t.arg ⟨E.location p a.source t.block, q.vars.size⟩) where
  nodup := h.nodup
  splits := h.splits
  size := by
    rw [setArg, size_modifyBlock, hi.size]
    exact h.size
  indexed := by
    refine h.indexed.of_label? fun c => ?_
    rw [label?_setArg, hi.labels]
  receivers c := by
    rw [← h.receivers, receivers_setArg, Program.receivers, hi.phis]
    rfl
  old c pre i hc := by
    rw [body_setArg]
    exact h.old_addCopy hp ha hsettled hi hc
  new c d e hvia := by
    rw [body_setArg]
    exact h.new_addCopy hp ha hi hvia
  args := h.args_addCopy ha hi
  settled t' a' hread ha' hs := by
    by_cases heq : t' = t
    · subst heq
      cases ha.symm.trans ha'
      exact hsettled hs
    · refine h.settled t' a' ?_ ha' hs
      simpa [Edits.addCopy, heq] using hread
  idle c d hs hmem := by
    have hne : ¬(c = a.source ∧ d = t.block) := by
      rintro ⟨rfl, rfl⟩
      exact hmem (hsettled hs)
    simp only [Edits.addCopy, if_neg hne]
    exact h.idle c d hs hmem

end AddCopy

end Laid

end Edits

end ChordalAlloc
