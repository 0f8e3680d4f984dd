/-
ChordalAlloc/Proofs/Routing.lean

One step of lowering: the operand of a phi gets a copy of its own.

While the phis of a block `b` are in work, an edge into `b` may have got a
block of its own although most phis of `b` still name the old source.  The
program in the middle of this work is not well formed; its view is, in which
every source goes under the name of the block that control now comes through
(`Lowering.view`).  In the view a step is at most a block on an edge,
followed by one copy (`Routed`), and every step succeeds (`route_spec`).
-/
import ChordalAlloc.Proofs.Records

namespace ChordalAlloc

open Program

namespace Lowering

/-! ### The view -/

/-- The block through which control comes from a source of the block in work. -/
def way (l : Lowering) (s : Label) : Label := (l.detours.lookup s).getD s

/-- The program, with the phis of `b` naming the blocks that control comes through. -/
def view (l : Lowering) (b : Label) : Program :=
  l.program.modifyBlock b fun x => { x with phis := x.phis.map (·.resource l.way) }

variable {l l' : Lowering} {b : Label}

theorem body_view (l : Lowering) (b c : Label) : (l.view b).body c = l.program.body c := by
  apply body_modifyBlock_eq
  intro x
  rfl

theorem size_view (l : Lowering) (b : Label) :
    (l.view b).blocks.size = l.program.blocks.size := size_modifyBlock _ _ _

theorem label?_view (l : Lowering) (b c : Label) : (l.view b).label? c = l.program.label? c := by
  apply label?_modifyBlock
  intro x
  rfl

theorem phis_view (l : Lowering) (b c : Label) : (l.view b).phis c =
    if c = b then (l.program.phis c).map (·.resource l.way) else l.program.phis c := by
  apply phis_modifyBlock (g := List.map (·.resource l.way))
  · intro x
    rfl
  · exact .inr rfl

theorem argAt?_view (l : Lowering) (b : Label) (s : Site) :
    (l.view b).argAt? s = (l.program.argAt? s).map fun a =>
      { a with source := if s.block = b then l.way a.source else a.source } := by
  rw [argAt?, argAt?, phiArg?_eq, phiArg?_eq, phis_view]
  by_cases hb : s.block = b
  · rw [if_pos hb, List.getElem?_map]
    rcases (l.program.phis s.block)[s.phi]? with - | φ
    · rfl
    · simp [Phi.resource, hb]
  · rw [if_neg hb]
    simp [hb]

/-- Without blocks on edges the view is the program. -/
theorem way_of_nil (h : l.detours = []) : l.way = id := by
  funext s
  rw [way, h]
  rfl

/-- The view is the program when every source of the block is the block control comes through. -/
theorem view_eq_self (h : ∀ s a, l.program.argAt? s = some a → s.block = b →
    l.way a.source = a.source) : l.view b = l.program := by
  refine ext_view rfl (size_view l b) (label?_view l b) (fun c => ?_) (body_view l b)
  rw [phis_view]
  split
  · next hc =>
    apply List.ext_getElem?
    intro k
    rw [List.getElem?_map]
    rcases hφ : (l.program.phis c)[k]? with - | φ
    · rfl
    · rw [Option.map_some, Phi.resource]
      congr
      apply List.ext_getElem?
      intro j
      rw [List.getElem?_map]
      rcases ha : φ.args[j]? with - | a
      · rfl
      · have harg : l.program.argAt? ⟨c, k, j⟩ = some a := by
          rw [argAt?, phiArg?_eq, hφ]
          exact ha
        rw [Option.map_some, h ⟨c, k, j⟩ a harg hc]
  · rfl

/-! ### Blocks on edges -/

/-- A block on an edge leads to `b` alone, and its source leads to more blocks than one. -/
structure Detoured (l : Lowering) (b : Label) : Prop where
  edge : ∀ s e, l.detours.lookup s = some e → (l.program.body e).getLast? = some (.jump b)
  lt_source : ∀ s e, l.detours.lookup s = some e → s < l.program.blocks.size
  source : ∀ s e, l.detours.lookup s = some e →
    ∀ t, (l.program.body s).getLast? ≠ some (.jump t)

theorem Detoured.of_nil (h : l.detours = []) : l.Detoured b := by
  refine ⟨?_, ?_, ?_⟩ <;>
  · intro s e hs
    rw [h] at hs
    cases hs

/-- A block that ends in a jump has no edge that got a block. -/
theorem Detoured.way_of_jump (hd : l.Detoured b) {c t : Label}
    (hc : (l.program.body c).getLast? = some (.jump t)) : l.way c = c := by
  rcases h : l.detours.lookup c with - | e
  · rw [way, h]
    rfl
  · exact absurd hc (hd.source c e h t)

/-- If the way from a source ends in no jump, it is the source itself. -/
theorem Detoured.lookup_eq_none (hd : l.Detoured b) {s : Label}
    (hs : ∀ t, (l.program.body (l.way s)).getLast? ≠ some (.jump t)) :
    l.detours.lookup s = none := by
  rcases h : l.detours.lookup s with - | e
  · rfl
  · rw [way, h] at hs
    exact absurd (hd.edge s e h) (hs b)

/-- Put a block without copies on the edge from `s` to `b`. -/
def detour (l : Lowering) (s b : Label) : Lowering :=
  { l with
    program := (l.program.freshBlock [.jump b]).2.modifyBlock s
      (·.redirect b l.program.blocks.size)
    detours := (s, l.program.blocks.size) :: l.detours }

theorem lookup_detour (l : Lowering) (s b c : Label) : (l.detour s b).detours.lookup c =
    if c = s then some l.program.blocks.size else l.detours.lookup c := by
  rw [detour, List.lookup_cons]
  by_cases h : c = s
  · rw [if_pos h, h, beq_self_eq_true]
  · rw [if_neg h, beq_false_of_ne h]

theorem size_detour (l : Lowering) (s b : Label) :
    (l.detour s b).program.blocks.size = l.program.blocks.size + 1 := by
  rw [detour, size_modifyBlock, size_freshBlock]

theorem phis_detour (l : Lowering) (s b c : Label) :
    (l.detour s b).program.phis c = l.program.phis c := by
  rw [← phis_freshBlock l.program [.jump b] c]
  apply phis_modifyBlock_eq
  intro x
  rfl

/-- A block with instructions `is` on the edge from `s` to `b`. -/
theorem body_split {p : Program} {s : Label} (hs : s < p.blocks.size) (is : List Instr)
    (b c : Label) :
    ((p.freshBlock is).2.modifyBlock s (·.redirect b p.blocks.size)).body c = if c = s then
      (p.body s).modify ((p.body s).length - 1) (·.redirect b p.blocks.size)
      else if c = p.blocks.size then is else p.body c := by
  have hne : s ≠ p.blocks.size := Nat.ne_of_lt hs
  rw [body_modifyBlock (c := s) (by rw [size_freshBlock]; exact Nat.lt_succ_of_lt hs)
    (g := fun is => is.modify (is.length - 1) (·.redirect b p.blocks.size))
    (fun _ => rfl), body_freshBlock]
  split
  · next h =>
    subst h
    rw [if_neg hne]
  · rfl

theorem body_detour {s : Label} (hs : s < l.program.blocks.size) (b c : Label) :
    (l.detour s b).program.body c = if c = s then
      (l.program.body s).modify ((l.program.body s).length - 1)
        (·.redirect b l.program.blocks.size)
      else if c = l.program.blocks.size then [.jump b] else l.program.body c :=
  body_split hs [.jump b] b c

theorem label?_detour (l : Lowering) (s b c : Label) : (l.detour s b).program.label? c =
    if c = l.program.blocks.size then some c else l.program.label? c := by
  rw [← label?_freshBlock l.program [.jump b] c]
  apply label?_modifyBlock
  intro x
  rfl

/-- In terms of ways, a block on the edge takes the place of the source. -/
theorem Detoured.way_detour (hd : l.Detoured b) {s : Label}
    (hs : ∀ t, (l.program.body s).getLast? ≠ some (.jump t))
    (hnone : l.detours.lookup s = none) (c : Label) :
    (l.detour s b).way c = (l.way c).redirect s l.program.blocks.size := by
  rw [way, lookup_detour]
  by_cases hc : c = s
  · have hway : l.way c = s := by rw [way, hc, hnone]; rfl
    rw [if_pos hc, hway, Label.redirect, if_pos rfl]
    rfl
  · have hway : l.way c ≠ s := by
      rcases hlook : l.detours.lookup c with - | e
      · rw [way, hlook]
        exact hc
      · rw [way, hlook]
        rintro rfl
        exact hs b (hd.edge c _ hlook)
    rw [if_neg hc, Label.redirect, if_neg hway]
    rfl

/-- A terminator that is no jump is none with other targets either. -/
theorem getLast?_redirect {is : List Instr} (hs : ∀ t, is.getLast? ≠ some (.jump t))
    (old new t : Label) :
    (is.modify (is.length - 1) (·.redirect old new)).getLast? ≠ some (.jump t) := by
  rw [getLast?_modify]
  intro h
  obtain ⟨i, hi, hjump⟩ := Option.map_eq_some_iff.1 h
  cases i with
  | jump x => exact hs x hi
  | _ => cases hjump

/-- A block that ended in a jump still does. -/
theorem getLast?_detour {s c t : Label} (hlt : s < l.program.blocks.size)
    (hs : ∀ t, (l.program.body s).getLast? ≠ some (.jump t))
    (hc : (l.program.body c).getLast? = some (.jump t)) :
    ((l.detour s b).program.body c).getLast? = some (.jump t) := by
  have hcs : c ≠ s := by
    rintro rfl
    exact hs t hc
  rw [body_detour hlt, if_neg hcs, if_neg (Nat.ne_of_lt (lt_size_of_getLast? hc)), hc]

theorem Detoured.detour (hd : l.Detoured b) {s : Label} (hlt : s < l.program.blocks.size)
    (hs : ∀ t, (l.program.body s).getLast? ≠ some (.jump t)) : (l.detour s b).Detoured b := by
  have hold : ∀ {c e : Label}, c ≠ s → (l.detour s b).detours.lookup c = some e →
      l.detours.lookup c = some e := by
    intro c e hc h
    rwa [lookup_detour, if_neg hc] at h
  have hbody := body_detour hlt b
  refine ⟨fun c e h => ?_, fun c e h => ?_, fun c e h t => ?_⟩
  · by_cases hc : c = s
    · rw [lookup_detour, if_pos hc, Option.some.injEq] at h
      rw [hbody, ← h, if_neg (Nat.ne_of_gt hlt), if_pos rfl]
      rfl
    · exact getLast?_detour hlt hs (hd.edge c e (hold hc h))
  · rw [size_detour]
    by_cases hc : c = s
    · rw [hc]
      exact Nat.lt_succ_of_lt hlt
    · exact Nat.lt_succ_of_lt (hd.lt_source c e (hold hc h))
  · rw [hbody]
    by_cases hc : c = s
    · rw [if_pos hc]
      exact getLast?_redirect hs _ _ t
    · rw [if_neg hc, if_neg (Nat.ne_of_lt (hd.lt_source c e (hold hc h)))]
      exact hd.source c e (hold hc h) t

/-- In the view, a block is put on an edge and the phis know of it. -/
theorem Detoured.detours (hd : l.Detoured b) {s : Label} (hedge : (l.view b).Edge s b)
    (hs : ∀ t, (l.program.body s).getLast? ≠ some (.jump t))
    (hnone : l.detours.lookup s = none) :
    Detours (l.view b) ((l.detour s b).view b) s b := by
  have hlt : s < l.program.blocks.size := by
    have := hedge.lt_size
    rwa [size_view] at this
  refine ⟨hedge, rfl, ?_, fun hindexed => ?_, ?_, ?_, fun c hc hce => ?_, ?_, fun c hc => ?_⟩
  · rw [size_view, size_view, size_detour]
  · rw [indexed_iff_label?] at hindexed ⊢
    intro c x hx
    rw [label?_view, label?_detour] at hx
    split at hx
    · exact (Option.some.inj hx).symm
    · exact hindexed c x (by rwa [label?_view])
  · rw [body_view, body_view, size_view, body_detour hlt, if_pos rfl]
  · rw [size_view, body_view, body_detour hlt, if_neg (Nat.ne_of_gt hlt), if_pos rfl]
  · rw [size_view] at hce
    rw [body_view, body_view, body_detour hlt, if_neg hc, if_neg hce]
  · rw [phis_view, if_pos rfl, phis_detour, phis_view, if_pos rfl, List.map_map, size_view]
    apply List.map_congr_left
    intro φ _
    rw [Function.comp_apply, funext (hd.way_detour hs hnone), Phi.resource, Phi.resource,
      Phi.resource, List.map_map]
    rfl
  · rw [phis_view, if_neg hc, phis_view, if_neg hc, phis_detour]

/-! ### One copy -/

/-- The program `q` is `p` with a fresh variable, to which `x` is copied before the jump of
`loc`. -/
structure Inserted (p q : Program) (b loc : Label) (x : Var) (init : List Instr) : Prop where
  vars : q.vars = p.vars.push { id := p.vars.size }
  size : q.blocks.size = p.blocks.size
  labels : ∀ c, q.label? c = p.label? c
  body_old : p.body loc = init ++ [.jump b]
  body_new : q.body loc = init ++ [.copy p.vars.size x, .jump b]
  body_other : ∀ c, c ≠ loc → q.body c = p.body c
  phis : ∀ c, q.phis c = p.phis c

/-- Blocks end the same way after the insertion. -/
theorem Inserted.getLast? {p q : Program} {loc : Label} {x : Var} {init : List Instr}
    (hi : Inserted p q b loc x init) (c : Label) :
    (q.body c).getLast? = (p.body c).getLast? := by
  by_cases hc : c = loc
  · rw [hc, hi.body_new, hi.body_old]
    simp
  · rw [hi.body_other c hc]

section Inserted

variable {q : Program} {k j : Nat} {a : PhiArg} {loc : Label} {init : List Instr}

/-- In the view, the fresh variable takes the place of the operand. -/
theorem Inserted.copyAdded (hi : Inserted l.program q b loc a.value init) (hd : l.Detoured b)
    (ha : l.program.phiArg? b k j = some a) (hloc : l.way a.source = loc)
    (hprogram : l'.program = q.setArg b k j ⟨loc, l.program.vars.size⟩)
    (hdetours : l'.detours = l.detours) :
    CopyAdded (l.view b) (l'.view b) b k j loc a.value init := by
  have hway : l'.way = l.way := by
    funext s
    rw [way, way, hdetours]
  have hown : l.way loc = loc := by
    apply hd.way_of_jump
    rw [hi.body_old, List.getLast?_concat]
  have hvars : (l.view b).vars = l.program.vars := rfl
  have hbody : ∀ c, (l'.view b).body c = q.body c := fun c => by
    rw [body_view, hprogram, body_setArg]
  refine ⟨⟨?_, ?_, fun c hc => ?_⟩, ?_, ?_, fun hindexed => ?_, ?_, ?_, fun c hc => ?_⟩
  · have harg := argAt?_view l b ⟨b, k, j⟩
    rw [show l.program.argAt? ⟨b, k, j⟩ = some a from ha, Option.map_some, if_pos rfl, hloc]
      at harg
    exact harg
  · rw [phis_view, if_pos rfl, phis_view, if_pos rfl, hprogram, phis_setArg, if_pos rfl, hi.phis,
      hway, hvars]
    apply List.ext_getElem?
    intro m
    rw [List.getElem?_map, List.getElem?_modify, List.getElem?_modify, List.getElem?_map]
    rcases (l.program.phis b)[m]? with - | φ
    · rfl
    · by_cases hkm : k = m
      · simp [hkm, Phi.resource, List.map_set, hown]
      · simp [hkm]
  · rw [phis_view, if_neg hc, phis_view, if_neg hc, hprogram, phis_setArg, if_neg hc, hi.phis]
  · show l'.program.vars = _
    rw [hvars, ← hi.vars, hprogram]
    rfl
  · rw [size_view, size_view, ← hi.size, hprogram, setArg, size_modifyBlock]
  · refine hindexed.of_label? fun c => ?_
    rw [label?_view, label?_view, hprogram, label?_setArg, hi.labels]
  · rw [body_view, hi.body_old]
  · rw [hbody, hi.body_new, hvars]
  · rw [hbody, body_view, hi.body_other c hc]

theorem Inserted.detoured (hi : Inserted l.program q b loc a.value init) (hd : l.Detoured b)
    (hprogram : l'.program = q.setArg b k j ⟨loc, l.program.vars.size⟩)
    (hdetours : l'.detours = l.detours) : l'.Detoured b := by
  have hlast : ∀ c, (l'.program.body c).getLast? = (l.program.body c).getLast? := fun c => by
    rw [hprogram, body_setArg, hi.getLast?]
  have hsize : l'.program.blocks.size = l.program.blocks.size := by
    rw [← hi.size, hprogram, setArg, size_modifyBlock]
  refine ⟨fun s e h => ?_, fun s e h => ?_, fun s e h => ?_⟩
  · rw [hdetours] at h
    rw [hlast]
    exact hd.edge s e h
  · rw [hdetours] at h
    rw [hsize]
    exact hd.lt_source s e h
  · rw [hdetours] at h
    rw [hlast]
    exact hd.source s e h

theorem Inserted.argAt? {p : Program} (hi : Inserted p q b loc a.value init)
    (ha : p.phiArg? b k j = some a) (s : Site) :
    (q.setArg b k j ⟨loc, p.vars.size⟩).argAt? s =
      if s = ⟨b, k, j⟩ then some ⟨loc, p.vars.size⟩ else p.argAt? s := by
  rw [← argAt?_congr hi.phis s]
  exact argAt?_setArg (s := ⟨b, k, j⟩) ((argAt?_congr hi.phis _).trans ha) _ s

end Inserted

/-! ### Making a way for an operand -/

/-- What `route` does: in the view there may be a block put on the edge, and then there is a
copy. -/
structure Routed (l l' : Lowering) (b : Label) (k j : Nat) (a : PhiArg) (spot : Placed) :
    Prop where
  copied : ∃ q init, (q = l.view b ∨ Detours (l.view b) q (l.way a.source) b ∧
      ∀ t, ((l.view b).body (l.way a.source)).getLast? ≠ some (.jump t)) ∧
    CopyAdded q (l'.view b) b k j spot.location a.value init ∧
    spot.dst = q.vars.size ∧ spot.index = init.length
  detoured : l'.Detoured b
  copies : l'.copies = l.copies
  jumps : ∀ c, (l.program.body c).getLast? = some (.jump b) →
    (l'.program.body c).getLast? = some (.jump b)
  arrives : (l'.program.body spot.location).getLast? = some (.jump b)
  args : ∀ s, l'.program.argAt? s =
    if s = ⟨b, k, j⟩ then some ⟨spot.location, spot.dst⟩ else l.program.argAt? s

section Route

variable {k j : Nat} {a : PhiArg} {n : Nat}

/-- The lowering after its program got a fresh variable. -/
def withFreshVar (l : Lowering) : Lowering := { l with program := l.program.freshVar.2 }

theorem Inserted.of_jump {p : Program} {loc : Label} {init : List Instr}
    (hlt : loc < p.blocks.size) (hbody : p.body loc = init ++ [.jump b]) (x : Var) :
    Inserted p (p.freshVar.2.modifyBlock loc (·.insertAtEnd (.copy p.vars.size x)))
      b loc x init := by
  have hnew := body_modifyBlock (p := p.freshVar.2) (c := loc)
    (f := (·.insertAtEnd (.copy p.vars.size x))) hlt
    (g := fun is => (Block.insertAtEnd { label := 0, body := is } (.copy p.vars.size x)).body)
    (fun _ => rfl)
  refine ⟨rfl, size_modifyBlock _ _ _, fun c => ?_, hbody, ?_, fun c hc => ?_, fun c => ?_⟩
  · apply label?_modifyBlock (p := p.freshVar.2)
    intro x
    rfl
  · rw [hnew, if_pos rfl]
    exact (Block.body_insertAtEnd hbody rfl _).2
  · rw [hnew, if_neg hc]
    rfl
  · apply phis_modifyBlock_eq (p := p.freshVar.2)
    intro x
    rfl

theorem Inserted.of_split {s : Label} (hs : s < l.program.blocks.size) (x : Var) :
    Inserted (l.detour s b).program
      (l.withFreshVar.splitEdge s b (.copy l.program.vars.size x)).1.program
      b l.program.blocks.size x [] := by
  have hne : l.program.blocks.size ≠ s := Nat.ne_of_gt hs
  have hold := body_detour hs b
  have hnew : ∀ c, (l.withFreshVar.splitEdge s b (.copy l.program.vars.size x)).1.program.body c
      = _ := body_split (p := l.program.freshVar.2) hs _ b
  refine ⟨rfl, ?_, fun c => ?_, ?_, ?_, fun c hc => ?_, fun c => ?_⟩
  · rw [size_detour]
    exact (size_modifyBlock _ _ _).trans (size_freshBlock _ _)
  · rw [label?_detour, ← label?_freshBlock l.program [.copy l.program.vars.size x, .jump b] c]
    apply label?_modifyBlock (p := (l.withFreshVar.program.freshBlock _).2)
    intro x
    rfl
  · rw [hold, if_neg hne, if_pos rfl]
    rfl
  · rw [hnew, if_neg hne]
    exact if_pos rfl
  · rw [hold, if_neg hc, hnew]
    by_cases hcs : c = s
    · rw [if_pos hcs, if_pos hcs]
      rfl
    · rw [if_neg hcs, if_neg hcs]
      exact if_neg hc
  · rw [phis_detour, ← phis_freshBlock l.program [.copy l.program.vars.size x, .jump b] c]
    apply phis_modifyBlock_eq (p := (l.withFreshVar.program.freshBlock _).2)
    intro x
    rfl

theorem putCopy_of_jump {block : Block} {source x : Label} (target : Label) (i : Instr)
    (hb : l.program.blocks[l.way source]? = some block)
    (ht : block.terminator? = some (.jump x)) : l.putCopy source target i =
      .ok ({ l with program := l.program.modifyBlock (l.way source) (·.insertAtEnd i) },
        l.way source, block.insertionPoint) := by
  rw [way] at hb ⊢
  simp only [putCopy, hb, ht]

theorem putCopy_of_branch {block : Block} {source : Label} {t : Instr} (target : Label) (i : Instr)
    (hb : l.program.blocks[l.way source]? = some block) (ht : block.terminator? = some t)
    (hne : ∀ x, t ≠ .jump x) : l.putCopy source target i =
      .ok ((l.splitEdge source target i).1, (l.splitEdge source target i).2, 0) := by
  rw [way] at hb
  simp only [putCopy, hb, ht]
  cases t with
  | jump x => exact absurd rfl (hne x)
  | _ => rfl

theorem route_of_putCopy {m : Lowering} {loc : Label} {index : Nat} {a' : PhiArg}
    (hput : l.withFreshVar.putCopy a.source b (.copy l.program.vars.size a.value)
      = .ok (m, loc, index))
    (harg : m.program.phiArg? b k j = some a') : l.route ⟨b, k, j⟩ a =
      .ok ({ m with program := m.program.setArg b k j ⟨loc, l.program.vars.size⟩ },
        ⟨l.program.vars.size, loc, index⟩) := by
  simp only [withFreshVar, freshVar] at hput
  simp only [route, freshVar, hput, onPhiArg?_eq harg]

theorem Inserted.phiArg? {p q : Program} {loc : Label} {x : Var} {init : List Instr}
    (hi : Inserted p q b loc x init) (c : Label) (k j : Nat) :
    q.phiArg? c k j = p.phiArg? c k j := by
  rw [phiArg?_eq, phiArg?_eq, hi.phis]

/-- The way from the source of an operand is an edge of the view. -/
theorem edge_way (hw : (l.view b).WellFormed n) (ha : l.program.phiArg? b k j = some a) :
    (l.view b).Edge (l.way a.source) b := by
  rw [phiArg?_eq] at ha
  obtain ⟨φ, hφ, ha⟩ := Option.bind_eq_some_iff.1 ha
  have hmem : φ.resource l.way ∈ (l.view b).phis b := by
    rw [phis_view, if_pos rfl]
    exact List.mem_map_of_mem (List.mem_of_getElem? hφ)
  apply ((hw.phi_args b _ hmem).2 (l.way a.source)).1
  rw [Phi.resource, List.map_map]
  exact List.mem_map.2 ⟨a, List.mem_of_getElem? ha, rfl⟩

/-- A copy into `m`, which is made of `l` or of `l` with a block on the edge. -/
theorem Routed.of_inserted {l₁ m : Lowering} {loc : Label} {init : List Instr}
    (hi : Inserted l₁.program m.program b loc a.value init) (hd : l₁.Detoured b)
    (ha : l₁.program.phiArg? b k j = some a) (hloc : l₁.way a.source = loc)
    (hdetours : m.detours = l₁.detours) (hcopies : m.copies = l.copies)
    (hview : l₁.view b = l.view b ∨ Detours (l.view b) (l₁.view b) (l.way a.source) b ∧
      ∀ t, ((l.view b).body (l.way a.source)).getLast? ≠ some (.jump t))
    (hjumps : ∀ c, (l.program.body c).getLast? = some (.jump b) →
      (l₁.program.body c).getLast? = some (.jump b))
    (hphis : ∀ c, l₁.program.phis c = l.program.phis c) :
    Routed l { m with program := m.program.setArg b k j ⟨loc, l₁.program.vars.size⟩ } b k j a
      ⟨l₁.program.vars.size, loc, init.length⟩ where
  copied := ⟨l₁.view b, init, hview, hi.copyAdded hd ha hloc rfl hdetours, rfl, rfl⟩
  detoured := hi.detoured hd rfl hdetours
  copies := hcopies
  jumps c hc := by
    rw [body_setArg, hi.getLast?, hjumps c hc]
  arrives := by
    rw [body_setArg, hi.getLast?, hi.body_old, List.getLast?_concat]
  args s := by
    rw [hi.argAt? ha]
    split
    · rfl
    · exact argAt?_congr hphis s

/-- A step that puts a copy into `m`, which is `l₁` otherwise, and makes the phi read it. -/
structure Puts (l l₁ m : Lowering) (b : Label) (k j : Nat) (a : PhiArg) (loc : Label)
    (init : List Instr) : Prop where
  route : l.route ⟨b, k, j⟩ a =
    .ok ({ m with program := m.program.setArg b k j ⟨loc, l₁.program.vars.size⟩ },
      ⟨l₁.program.vars.size, loc, init.length⟩)
  inserted : Inserted l₁.program m.program b loc a.value init
  detours : m.detours = l₁.detours
  copies : m.copies = l.copies
  saved : m.saved = l.saved

/-- A copy goes before the jump of the block that leads to `b` only. -/
theorem puts_of_jump (ha : l.program.phiArg? b k j = some a) {init : List Instr}
    (hbody : l.program.body (l.way a.source) = init ++ [.jump b]) :
    ∃ m, Puts l l m b k j a (l.way a.source) init ∧ m.splits = l.splits := by
  have hlt : l.way a.source < l.program.blocks.size :=
    lt_size_of_getLast? (by rw [hbody, List.getLast?_concat])
  obtain ⟨block, hb⟩ := exists_block hlt
  rw [body_of hb] at hbody
  have hterm : block.terminator? = some (.jump b) := by
    rw [Block.terminator?, hbody, List.getLast?_concat]
    rfl
  have hi := Inserted.of_jump hlt ((body_of hb).trans hbody) a.value
  have hput := putCopy_of_jump (l := l.withFreshVar) b
    (.copy l.program.vars.size a.value) hb hterm
  rw [(Block.body_insertAtEnd hbody rfl .nop).1] at hput
  exact ⟨_, ⟨route_of_putCopy hput ((hi.phiArg? b k j).trans ha), hi, rfl, rfl, rfl⟩, rfl⟩

/-- A block that leads elsewhere too gets a block on its edge to `b`. -/
theorem puts_of_branch (ha : l.program.phiArg? b k j = some a)
    (hway : l.way a.source = a.source) {init : List Instr} {t : Instr}
    (hbody : l.program.body a.source = init ++ [t]) (ht : t.isTerminator = true)
    (hne : ∀ x, t ≠ .jump x) :
    ∃ m, Puts l (l.detour a.source b) m b k j a l.program.blocks.size [] ∧
      m.splits = l.splits + 1 := by
  have hlt : a.source < l.program.blocks.size :=
    lt_size_of_getLast? (by rw [hbody, List.getLast?_concat])
  obtain ⟨block, hb⟩ := exists_block hlt
  have hterm : block.terminator? = some t := by
    rw [Block.terminator?, ← body_of hb, hbody, List.getLast?_concat, Option.filter_some_pos ht]
  have hi := Inserted.of_split (b := b) hlt a.value
  have hput := putCopy_of_branch (l := l.withFreshVar) b
    (.copy l.program.vars.size a.value) (by rwa [← hway] at hb) hterm hne
  have ha' : (l.detour a.source b).program.phiArg? b k j = some a := by
    rw [phiArg?_eq, phis_detour, ← phiArg?_eq, ha]
  exact ⟨_, ⟨route_of_putCopy hput ((hi.phiArg? b k j).trans ha'), hi, rfl, rfl, rfl⟩, rfl⟩

theorem route_of_jump (hd : l.Detoured b) (ha : l.program.phiArg? b k j = some a)
    {init : List Instr} (hbody : l.program.body (l.way a.source) = init ++ [.jump b]) :
    ∃ l' spot, l.route ⟨b, k, j⟩ a = .ok (l', spot) ∧ Routed l l' b k j a spot := by
  obtain ⟨m, h, -⟩ := puts_of_jump ha hbody
  refine ⟨_, _, h.route, ?_⟩
  exact Routed.of_inserted h.inserted hd ha rfl h.detours h.copies (.inl rfl) (fun _ hc => hc)
    fun _ => rfl

theorem route_of_branch (hd : l.Detoured b) (hw : (l.view b).WellFormed n)
    (ha : l.program.phiArg? b k j = some a) {init : List Instr} {t : Instr}
    (hbody : l.program.body (l.way a.source) = init ++ [t]) (ht : t.isTerminator = true)
    (hne : ∀ x, t ≠ .jump x) :
    ∃ l' spot, l.route ⟨b, k, j⟩ a = .ok (l', spot) ∧ Routed l l' b k j a spot := by
  have hs : ∀ x, (l.program.body (l.way a.source)).getLast? ≠ some (.jump x) := by
    intro x hx
    rw [hbody, List.getLast?_concat, Option.some.injEq] at hx
    exact hne x hx
  have hnone : l.detours.lookup a.source = none := hd.lookup_eq_none hs
  have hway : l.way a.source = a.source := by rw [way, hnone]; rfl
  have hedge := edge_way hw ha
  rw [hway] at hs hedge hbody
  have hlt : a.source < l.program.blocks.size := by
    have := hedge.lt_size
    rwa [size_view] at this
  obtain ⟨m, h, -⟩ := puts_of_branch ha hway hbody ht hne
  have ha' : (l.detour a.source b).program.phiArg? b k j = some a := by
    rw [phiArg?_eq, phis_detour, ← phiArg?_eq, ha]
  have hway' : (l.detour a.source b).way a.source = l.program.blocks.size := by
    rw [way, lookup_detour, if_pos rfl]
    rfl
  refine ⟨_, _, h.route, ?_⟩
  refine Routed.of_inserted h.inserted (hd.detour hlt hs) ha' hway' h.detours h.copies
    (.inr ⟨?_, ?_⟩) (fun c => getLast?_detour hlt hs) (phis_detour l a.source b)
  · rw [hway]
    exact hd.detours hedge hs hnone
  · rw [body_view, hway]
    exact hs

theorem route_spec (hd : l.Detoured b) (hw : (l.view b).WellFormed n)
    (ha : l.program.phiArg? b k j = some a) :
    ∃ l' spot, l.route ⟨b, k, j⟩ a = .ok (l', spot) ∧ Routed l l' b k j a spot := by
  have hedge := edge_way hw ha
  obtain ⟨init, t, hbody, ht, -⟩ := hw.closed _ hedge.lt_size
  have htarget : b ∈ t.targets := by
    have := hedge.1
    rw [targets, hbody, List.getLast?_concat] at this
    exact this
  rw [body_view] at hbody
  by_cases hjump : ∃ x, t = .jump x
  · obtain ⟨x, rfl⟩ := hjump
    obtain rfl : b = x := List.mem_singleton.1 htarget
    exact route_of_jump hd ha hbody
  · exact route_of_branch hd hw ha hbody ht fun x hx => hjump ⟨x, hx⟩

end Route

end Lowering

end ChordalAlloc
