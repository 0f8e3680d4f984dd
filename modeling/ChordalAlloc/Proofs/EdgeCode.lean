/-
ChordalAlloc/Proofs/EdgeCode.lean

The copies that lowering puts on an edge.

The work on a block `b` makes one step for each operand that has to be saved,
and then one for each operand.  A step puts one copy at the end of the way
that the operand comes over (`Editing.route`), so after the first round a way
has a copy for each operand that was saved (`Saving`), and after the second
one it has in addition a copy for each operand (`Moving`), always in the
order of the phis.  A block on an edge is there as soon as the first copy is.
Nothing else changes, so after all blocks the program is the old one with the
copies that belong to each edge (`Lowering.finished_lower`).
-/
import ChordalAlloc.Proofs.Layout
import ChordalAlloc.Proofs.Lowering

namespace ChordalAlloc

open Program

/-! ### The copies of an edge -/

namespace Program

/-- The entries of the phis of a block, in order. -/
def sitesOf (p : Program) (b : Label) : List Site := Lowering.sites b (p.phis b)

/-- Of some entries of phis, those for control that comes from `s`, each with its operand. -/
def entriesFrom (p : Program) (s : Label) (ts : List Site) : List (Site × Var) :=
  ts.filterMap fun t => (p.argAt? t).bind fun a => if a.source = s then some (t, a.value) else none

/-- An operand is saved if a phi of the block sets it. -/
def savedCopies (p : Program) (save : Site → Var) (b s : Label) (ts : List Site) : List Instr :=
  ((p.entriesFrom s ts).filter fun e => decide (e.2 ∈ p.receivers b)).map fun e =>
    .copy (save e.1) e.2

/-- Every operand, or what it was saved in, is copied. -/
def operandCopies (p : Program) (save dst : Site → Var) (b s : Label) (ts : List Site) :
    List Instr :=
  (p.entriesFrom s ts).map fun e =>
    .copy (dst e.1) (if e.2 ∈ p.receivers b then save e.1 else e.2)

/-- The copies on the way from `s` to `b`: first what has to be saved, then all operands. -/
def edgeCode (p : Program) (save dst : Site → Var) (s b : Label) : List Instr :=
  p.savedCopies save b s (p.sitesOf b) ++ p.operandCopies save dst b s (p.sitesOf b)

variable {p : Program} {s b : Label} {ts : List Site} {t : Site} {a : PhiArg}

theorem mem_entriesFrom {e : Site × Var} (h : e ∈ p.entriesFrom s ts) : e.1 ∈ ts := by
  obtain ⟨t, ht, heq⟩ := List.mem_filterMap.1 h
  obtain ⟨a, -, ha⟩ := Option.bind_eq_some_iff.1 heq
  split at ha
  · cases ha
    exact ht
  · cases ha

theorem entriesFrom_append (ha : p.argAt? t = some a) : p.entriesFrom s (ts ++ [t]) =
    p.entriesFrom s ts ++ if a.source = s then [(t, a.value)] else [] := by
  rw [entriesFrom, List.filterMap_append, entriesFrom]
  congr 1
  by_cases hs : a.source = s <;> simp [ha, hs]

theorem savedCopies_congr {save save' : Site → Var} (h : ∀ t ∈ ts, save t = save' t) :
    p.savedCopies save b s ts = p.savedCopies save' b s ts := by
  refine List.map_congr_left fun e he => ?_
  rw [h e.1 (mem_entriesFrom (List.mem_of_mem_filter he))]

theorem operandCopies_congr {save save' dst dst' : Site → Var} (hsave : ∀ t ∈ ts, save t = save' t)
    (hdst : ∀ t ∈ ts, dst t = dst' t) :
    p.operandCopies save dst b s ts = p.operandCopies save' dst' b s ts := by
  refine List.map_congr_left fun e he => ?_
  rw [hsave e.1 (mem_entriesFrom he), hdst e.1 (mem_entriesFrom he)]

theorem savedCopies_append {save : Site → Var} (ha : p.argAt? t = some a) :
    p.savedCopies save b s (ts ++ [t]) = p.savedCopies save b s ts ++
      if a.source = s ∧ a.value ∈ p.receivers b then [.copy (save t) a.value] else [] := by
  rw [savedCopies, entriesFrom_append ha, List.filter_append, List.map_append, savedCopies]
  congr 1
  by_cases hs : a.source = s <;> by_cases hv : a.value ∈ p.receivers b <;> simp [hs, hv]

theorem operandCopies_append {save dst : Site → Var} (ha : p.argAt? t = some a) :
    p.operandCopies save dst b s (ts ++ [t]) = p.operandCopies save dst b s ts ++
      if a.source = s then
        [.copy (dst t) (if a.value ∈ p.receivers b then save t else a.value)] else [] := by
  rw [operandCopies, entriesFrom_append ha, List.map_append, operandCopies]
  congr 1
  by_cases hs : a.source = s <;> simp [hs]

end Program

/-! ### One step -/

/-- The edits `E'` are those of `E`, a copy of `x` to `y` for the entry `t`, on the way from `s`,
and maybe a block on the edge. -/
structure Edits.Adds (E E' : Edits) (t : Site) (s : Label) (y x : Var) : Prop where
  code : ∀ c d, E'.code c d =
    E.code c d ++ if c = s ∧ d = t.block then [.copy y x] else []
  read : ∀ t', E'.read t' = if t' = t then some y else E.read t'

theorem Edits.adds_addCopy (E : Edits) (t : Site) (s : Label) (y x : Var) :
    E.Adds (E.addCopy t s y x) t s y x where
  code c d := by
    by_cases h : c = s ∧ d = t.block <;> simp [addCopy, h]
  read t' := rfl

namespace Lowering

variable {p : Program} {n : Nat} {b : Label} {E₀ E : Edits} {l l₀ : Lowering} {t : Site}
  {a : PhiArg}

/-- In the middle of the work on the phis of `b`, which began with the edits `E₀`. -/
structure Editing (p : Program) (b : Label) (E₀ E : Edits) (l : Lowering) : Prop where
  laid : E.Laid p l.program
  detours : ∀ s, l.detours.lookup s = p.between E.split s b
  splits : l.splits = E.split.length
  code : ∀ s c, c ≠ b → E.code s c = E₀.code s c
  read : ∀ t, t.block ≠ b → E.read t = E₀.read t
  split : ∀ s c, (s, c) ∈ E.split → c = b ∨ (s, c) ∈ E₀.split
  vars_le : p.vars.size ≤ l.program.vars.size
  /-- What is read in place of an operand is no variable of `p`. -/
  fresh : ∀ t y, E.read t = some y → p.vars.size ≤ y

/-- The way from the source that an entry shows is the way from the source it had. -/
theorem Editing.way_shown (h : Editing p b E₀ E l) (hb : t.block = b) (a : PhiArg) :
    l.way (E.shown p t a).source = E.location p a.source b := by
  have hway : ∀ s, l.way s = E.location p s b := by
    intro s
    rw [way, h.detours]
    rfl
  rw [hway]
  rcases hread : E.read t with - | y
  · rw [Edits.shown_of_none hread]
  · rw [Edits.shown_of_some hread, hb]
    rcases hat : p.between E.split a.source b with - | e
    · simp only [Edits.location, hat, Option.getD_none]
    · have hloc : E.location p a.source b = e := by rw [Edits.location, hat]; rfl
      rw [hloc, Edits.location, between_eq_none]
      · rfl
      · -- no edge of the old program starts in a new block
        intro hmem
        exact Nat.not_lt_of_le (between_bounds hat).2.1 (h.laid.splits e b hmem).1.lt_size

/-- Records and counts do not matter. -/
theorem Editing.congr {l' : Lowering} (h : Editing p b E₀ E l) (hprogram : l'.program = l.program)
    (hdetours : l'.detours = l.detours) (hsplits : l'.splits = l.splits) :
    Editing p b E₀ E l' where
  laid := hprogram ▸ h.laid
  detours := hdetours ▸ h.detours
  splits := hsplits.trans h.splits
  code := h.code
  read := h.read
  split := h.split
  vars_le := hprogram ▸ h.vars_le
  fresh := h.fresh

theorem Editing.of_adds {E' : Edits} {l' : Lowering} {s : Label} {x : Var}
    (h : Editing p b E₀ E l) (hb : t.block = b)
    (hadds : E.Adds E' t s l.program.vars.size x) (hlaid : E'.Laid p l'.program)
    (hdetours : ∀ s, l'.detours.lookup s = p.between E'.split s b)
    (hsplits : l'.splits = E'.split.length)
    (hsplit : ∀ s c, (s, c) ∈ E'.split → c = b ∨ (s, c) ∈ E.split)
    (hvars : l'.program.vars.size = l.program.vars.size + 1) : Editing p b E₀ E' l' where
  laid := hlaid
  detours := hdetours
  splits := hsplits
  code c d hd := by
    rw [hadds.code, if_neg fun h => hd (h.2.trans hb), List.append_nil, h.code c d hd]
  read t' ht' := by
    rw [hadds.read, if_neg, h.read t' ht']
    rintro rfl
    exact ht' hb
  split c d hmem := (hsplit c d hmem).elim .inl (h.split c d)
  vars_le := hvars ▸ Nat.le_succ_of_le h.vars_le
  fresh t' y hy := by
    rw [hadds.read] at hy
    split at hy
    · cases hy
      exact h.vars_le
    · exact h.fresh t' y hy

/-- What a step for an entry does: there is one more copy, and one more variable, and nothing has
been counted yet. -/
structure Stepped (p : Program) (b : Label) (E₀ E : Edits) (l : Lowering) (t : Site) (a : PhiArg)
    (E' : Edits) (l' : Lowering) : Prop where
  editing : Editing p b E₀ E' l'
  adds : E.Adds E' t a.source l.program.vars.size (E.shown p t a).value
  copies : l'.copies = l.copies
  saved : l'.saved = l.saved
  vars : l'.program.vars.size = l.program.vars.size + 1

/-- A step on a way that needs no block, or has one. -/
theorem Editing.route_of_settled (h : Editing p b E₀ E l) (hp : p.WellFormed n)
    (hb : t.block = b) (ha : p.argAt? t = some a)
    (hsettled : p.Splits a.source t.block → (a.source, t.block) ∈ E.split) :
    ∃ l' spot E', l.route t (E.shown p t a) = .ok (l', spot) ∧ Stepped p b E₀ E l t a E' l' := by
  subst hb
  have hcur : l.program.argAt? t = some (E.shown p t a) := by rw [h.laid.args, ha, Option.map_some]
  obtain ⟨init, hbody⟩ := h.laid.body_location hp ha hsettled
  rw [← h.way_shown rfl a] at hbody
  obtain ⟨m, hm, hsplits⟩ := puts_of_jump hcur hbody
  rw [h.way_shown rfl a] at hm
  have hadds := E.adds_addCopy t a.source l.program.vars.size (E.shown p t a).value
  have hvars : m.program.vars.size = l.program.vars.size + 1 := by
    rw [hm.inserted.vars, Array.size_push]
  refine ⟨_, _, _, hm.route, h.of_adds rfl hadds (h.laid.addCopy hp ha hsettled hm.inserted)
    (fun s => ?_) (hsplits.trans h.splits) (fun s c => .inr) hvars, hadds, hm.copies, hm.saved,
    hvars⟩
  show m.detours.lookup s = p.between E.split s t.block
  rw [hm.detours, h.detours]

/-- A step on a way that needs a block puts one on the edge. -/
theorem Editing.route_of_split (h : Editing p b E₀ E l) (hp : p.WellFormed n)
    (hb : t.block = b) (ha : p.argAt? t = some a) (hs : p.Splits a.source t.block)
    (hnew : (a.source, t.block) ∉ E.split) :
    ∃ l' spot E', l.route t (E.shown p t a) = .ok (l', spot) ∧ Stepped p b E₀ E l t a E' l' := by
  subst hb
  have hread := h.laid.read_eq_none ha hs hnew
  have hshown : E.shown p t a = a := Edits.shown_of_none hread p a
  have hcur : l.program.argAt? t = some a := by rw [h.laid.args, ha, Option.map_some, hshown]
  have hway : l.way a.source = a.source := by
    have hway := h.way_shown rfl a
    rwa [hshown, Edits.location, between_eq_none hnew] at hway
  obtain ⟨init, i, hbody, hterm, -⟩ := hp.closed a.source hs.1.lt_size
  have hne : ∀ x, i ≠ .jump x := by
    rintro x rfl
    exact hs.2.2 x (by rw [hbody, List.getLast?_concat])
  have hnow : l.program.body a.source = init ++ [i.reroute (E.target p a.source)] := by
    rw [h.laid.old _ _ _ hbody, E.ahead_of_ne _ hne, List.append_nil]
  obtain ⟨m, hm, hsplits⟩ := puts_of_branch hcur hway hnow
    (by rw [Instr.isTerminator_reroute]; exact hterm) (Instr.reroute_ne_jump hne _)
  -- with the block on the edge, the copy goes there
  have hloc : (E.addBlock a.source t.block).location p a.source t.block
      = l.program.blocks.size := by
    rw [Edits.location, Edits.addBlock, between_append hnew, if_pos ⟨rfl, rfl⟩, h.laid.size]
    rfl
  have hshown' : (E.addBlock a.source t.block).shown p t a = a := by
    apply Edits.shown_of_none
    exact hread
  have hlaid := (h.laid.addBlock hs hnew).addCopy hp ha
    (fun _ => List.mem_append_right _ List.mem_cons_self)
    (by rw [hloc, hshown']; exact hm.inserted)
  rw [hloc, hshown'] at hlaid
  have hadds : E.Adds ((E.addBlock a.source t.block).addCopy t a.source l.program.vars.size a.value)
      t a.source l.program.vars.size a.value :=
    ⟨(Edits.adds_addCopy _ _ _ _ _).code, (Edits.adds_addCopy _ _ _ _ _).read⟩
  have hvars : m.program.vars.size = l.program.vars.size + 1 := by
    rw [hm.inserted.vars, Array.size_push]
    rfl
  refine ⟨_, _, _, (congrArg (l.route t) hshown).trans hm.route,
    h.of_adds rfl hadds hlaid (fun s => ?_) ?_ (fun s c hmem => ?_) hvars,
    by rw [hshown]; exact hadds, hm.copies, hm.saved, hvars⟩
  · show m.detours.lookup s = p.between (E.split ++ [(a.source, t.block)]) s t.block
    rw [hm.detours, lookup_detour, between_append hnew, h.detours, h.laid.size]
    simp
  · show m.splits = (E.split ++ [(a.source, t.block)]).length
    rw [hsplits, h.splits, List.length_append, List.length_singleton]
  · rcases List.mem_append.1 hmem with hmem | hmem
    · exact .inr hmem
    · cases List.mem_singleton.1 hmem
      exact .inl rfl

/-- A step for an entry puts a copy on the way that its operand comes over. -/
theorem Editing.route (h : Editing p b E₀ E l) (hp : p.WellFormed n) (hb : t.block = b)
    (ha : p.argAt? t = some a) :
    ∃ l' spot E', l.route t (E.shown p t a) = .ok (l', spot) ∧ Stepped p b E₀ E l t a E' l' := by
  by_cases hsettled : p.Splits a.source t.block → (a.source, t.block) ∈ E.split
  · exact h.route_of_settled hp hb ha hsettled
  · rw [Classical.not_imp] at hsettled
    exact h.route_of_split hp hb ha hsettled.1 hsettled.2

/-! ### Two rounds for a block -/

/-- An entry whose operand a phi of the block sets. -/
def isSaved (p : Program) (t : Site) : Bool :=
  (p.argAt? t).any fun a => decide (a.value ∈ p.receivers t.block)

/-- In the first round, which began with `l₀` and has been at `past`. -/
structure Saving (p : Program) (b : Label) (E₀ : Edits) (l₀ : Lowering) (past : List Site)
    (E : Edits) (l : Lowering) : Prop where
  editing : Editing p b E₀ E l
  copies_on : ∀ s, E.code s b = p.savedCopies (fun t => (E.read t).getD 0) b s past
  reads : ∀ t, t.block = b → ((E.read t).isSome = true ↔ t ∈ past ∧ isSaved p t = true)
  copies : l.copies = l₀.copies
  saved : l.saved = l₀.saved + past.countP (isSaved p)
  vars : l.program.vars.size = p.vars.size + l.copies.size + l.saved

theorem isSaved_eq (ha : p.argAt? t = some a) :
    isSaved p t = decide (a.value ∈ p.receivers t.block) := by
  rw [isSaved, ha]
  rfl

theorem isSome_of_isSaved (h : isSaved p t = true) : (p.argAt? t).isSome = true := by
  rcases ha : p.argAt? t with - | a
  · rw [isSaved, ha] at h
    cases h
  · rfl

section Saving

variable {past : List Site} (h : Saving p b E₀ l₀ past E l) (hb : t.block = b)
  (ha : p.argAt? t = some a)

include h hb ha

/-- An operand that no phi of the block sets is left alone. -/
theorem Saving.skip (hmem : a.value ∉ p.receivers b) : Saving p b E₀ l₀ (past ++ [t]) E l := by
  subst hb
  have hsaved : isSaved p t = false := (isSaved_eq ha).trans (decide_eq_false hmem)
  refine ⟨h.editing, fun s => ?_, fun t' ht' => ?_, h.copies, ?_, h.vars⟩
  · rw [savedCopies_append ha, if_neg fun hc => hmem hc.2, List.append_nil, h.copies_on]
  · rw [h.reads t' ht', List.mem_append, List.mem_singleton]
    constructor
    · exact fun hpast => ⟨.inl hpast.1, hpast.2⟩
    · rintro ⟨hin | rfl, hs⟩
      · exact ⟨hin, hs⟩
      · rw [hsaved] at hs
        cases hs
  · rw [h.saved, List.countP_append, List.countP_singleton, hsaved]
    rfl

variable (hpast : t ∉ past)

include hpast

omit ha in
theorem Saving.shown_eq (a : PhiArg) : E.shown p t a = a := by
  apply Edits.shown_of_none
  rw [← Option.not_isSome_iff_eq_none, h.reads t hb]
  exact fun hread => hpast hread.1

/-- A step for any other operand, when it has been counted. -/
theorem Saving.add {E' : Edits} {l' : Lowering} (hmem : a.value ∈ p.receivers b)
    (hstep : Stepped p b E₀ E l t a E' l') (e : Event) :
    Saving p b E₀ l₀ (past ++ [t]) E' ({ l' with saved := l'.saved + 1 }.tell e) := by
  have hadds := hstep.adds
  rw [h.shown_eq hb hpast] at hadds
  subst hb
  have hsaved : isSaved p t = true := (isSaved_eq ha).trans (decide_eq_true hmem)
  refine ⟨hstep.editing.congr rfl rfl rfl, fun s => ?_, fun t' ht' => ?_,
    hstep.copies.trans h.copies, ?_, ?_⟩
  · have hsame : p.savedCopies (fun t => (E'.read t).getD 0) t.block s past
        = E.code s t.block := by
      rw [h.copies_on]
      apply savedCopies_congr
      intro t' ht'
      rw [hadds.read, if_neg (ne_of_mem_of_not_mem ht' hpast)]
    rw [savedCopies_append ha, hsame, hadds.code, hadds.read, if_pos rfl]
    simp only [and_true, hmem, eq_comm, Option.getD_some]
  · rw [hadds.read]
    by_cases heq : t' = t
    · rw [if_pos heq, heq, hsaved]
      simp
    · rw [if_neg heq, h.reads t' ht', List.mem_append, List.mem_singleton, or_iff_left heq]
  · show l'.saved + 1 = _
    rw [hstep.saved, h.saved, List.countP_append, List.countP_singleton, if_pos hsaved,
      Nat.add_assoc]
  · show l'.program.vars.size = p.vars.size + l'.copies.size + (l'.saved + 1)
    rw [hstep.vars, h.vars, hstep.copies, hstep.saved]
    rfl

theorem Saving.step (hp : p.WellFormed n) :
    ∃ l' E', saveSite (p.receivers b) l t = .ok l' ∧ Saving p b E₀ l₀ (past ++ [t]) E' l' := by
  have hcur : l.program.phiArg? t.block t.phi t.arg = some a := by
    have hargs := h.editing.laid.args t
    rwa [ha, Option.map_some, h.shown_eq hb hpast] at hargs
  simp only [saveSite, hcur]
  by_cases hmem : a.value ∈ p.receivers b
  · obtain ⟨l', spot, E', hroute, hstep⟩ := h.editing.route hp hb ha
    rw [h.shown_eq hb hpast] at hroute
    rw [if_pos (List.contains_iff_mem.2 hmem), hroute]
    exact ⟨_, E', rfl, h.add hb ha hpast hmem hstep _⟩
  · rw [if_neg fun hc => hmem (List.contains_iff_mem.1 hc)]
    exact ⟨l, E, rfl, h.skip hb ha hmem⟩

end Saving

/-- In the second round, which began with `l₁` and has been at `past`. -/
structure Moving (p : Program) (b : Label) (E₀ E₁ : Edits) (l₁ : Lowering) (past : List Site)
    (E : Edits) (l : Lowering) : Prop where
  editing : Editing p b E₀ E l
  copies_on : ∀ s, E.code s b = E₁.code s b ++
    p.operandCopies (fun t => (E₁.read t).getD 0) (fun t => (E.read t).getD 0) b s past
  reads : ∀ t ∈ past, (E.read t).isSome = true
  waits : ∀ t, t ∉ past → E.read t = E₁.read t
  copies : l.copies.toList.map (·.site) = l₁.copies.toList.map (·.site) ++ past
  saved : l.saved = l₁.saved
  vars : l.program.vars.size = p.vars.size + l.copies.size + l.saved

section Moving

variable {E₁ : Edits} {l₁ : Lowering} {past : List Site} (h : Moving p b E₀ E₁ l₁ past E l)
  (hb : t.block = b) (ha : p.argAt? t = some a) (hpast : t ∉ past)
  (hsaved : (E₁.read t).isSome = true ↔ a.value ∈ p.receivers b)

include h hpast hsaved

/-- What is copied is the operand, or what it was saved in. -/
theorem Moving.value_shown : (E.shown p t a).value =
    if a.value ∈ p.receivers b then (E₁.read t).getD 0 else a.value := by
  have hwaits := h.waits t hpast
  rcases hread : E₁.read t with - | y
  · rw [Edits.shown_of_none (hwaits.trans hread), if_neg]
    rw [← hsaved, hread]
    exact Bool.false_ne_true
  · rw [Edits.shown_of_some (hwaits.trans hread), if_pos]
    · rfl
    · rw [← hsaved, hread]
      rfl

include hb ha

/-- A step, when its copy has been recorded. -/
theorem Moving.add {E' : Edits} {l' : Lowering} (hstep : Stepped p b E₀ E l t a E' l')
    {c : EdgeCopy} (hc : c.site = t) (e : Event) :
    Moving p b E₀ E₁ l₁ (past ++ [t]) E' ({ l' with copies := l'.copies.push c }.tell e) := by
  have hadds := hstep.adds
  rw [h.value_shown hpast hsaved] at hadds
  subst hb
  refine ⟨hstep.editing.congr rfl rfl rfl, fun s => ?_, fun t' ht' => ?_, fun t' ht' => ?_, ?_,
    hstep.saved.trans h.saved, ?_⟩
  · have hsame : p.operandCopies (fun t => (E₁.read t).getD 0) (fun t => (E'.read t).getD 0)
          t.block s past
        = p.operandCopies (fun t => (E₁.read t).getD 0) (fun t => (E.read t).getD 0)
          t.block s past := by
      refine operandCopies_congr (fun _ _ => rfl) fun t' ht' => ?_
      rw [hadds.read, if_neg (ne_of_mem_of_not_mem ht' hpast)]
    rw [operandCopies_append ha, hsame, ← List.append_assoc, ← h.copies_on, hadds.code,
      hadds.read, if_pos rfl]
    simp only [and_true, eq_comm, Option.getD_some]
  · rw [hadds.read]
    by_cases heq : t' = t
    · rw [if_pos heq]
      rfl
    · rw [if_neg heq]
      exact h.reads t' ((List.mem_append.1 ht').resolve_right fun hs =>
        heq (List.mem_singleton.1 hs))
  · have hnot : t' ∉ past ∧ t' ≠ t := by simpa using ht'
    rw [hadds.read, if_neg hnot.2, h.waits t' hnot.1]
  · show ((l'.copies.push c).toList).map (·.site) = _
    rw [Array.toList_push, List.map_append, hstep.copies, h.copies, List.append_assoc, ← hc]
    rfl
  · show l'.program.vars.size = p.vars.size + (l'.copies.push c).size + l'.saved
    rw [hstep.vars, h.vars, Array.size_push, hstep.copies, hstep.saved]
    omega

theorem Moving.step (hp : p.WellFormed n) :
    ∃ l' E', copySite l t = .ok l' ∧ Moving p b E₀ E₁ l₁ (past ++ [t]) E' l' := by
  have hcur : l.program.phiArg? t.block t.phi t.arg = some (E.shown p t a) := by
    have hargs := h.editing.laid.args t
    rwa [ha, Option.map_some] at hargs
  obtain ⟨l', spot, E', hroute, hstep⟩ := h.editing.route hp hb ha
  simp only [copySite, hcur, hroute]
  exact ⟨_, E', rfl, h.add hb ha hpast hsaved hstep rfl _⟩

end Moving

/-! ### Blocks -/

/-- The phis of the blocks of `done` have been lowered. -/
structure Finished (p : Program) (done : List Label) (save : Site → Var) (E : Edits)
    (l : Lowering) : Prop where
  laid : E.Laid p l.program
  splits : l.splits = E.split.length
  code : ∀ s c, E.code s c =
    if c ∈ done then p.edgeCode save (fun t => (E.read t).getD 0) s c else []
  split : ∀ s c, (s, c) ∈ E.split → c ∈ done
  reads : ∀ t, (E.read t).isSome = true ↔ t.block ∈ done ∧ (p.argAt? t).isSome = true
  copies : l.copies.toList.map (·.site) = done.flatMap p.sitesOf
  saved : l.saved = (done.flatMap p.sitesOf).countP (isSaved p)
  vars : l.program.vars.size = p.vars.size + l.copies.size + l.saved
  fresh : ∀ t y, E.read t = some y → p.vars.size ≤ y
  fresh_save : ∀ t, t.block ∈ done → isSaved p t = true → p.vars.size ≤ save t

theorem mem_sitesOf : t ∈ p.sitesOf b ↔ t.block = b ∧ (p.argAt? t).isSome = true := mem_sites_phis

/-- An entry comes up once. -/
theorem nodup_sitesOf (p : Program) (b : Label) : (p.sitesOf b).Nodup := nodup_sites b (p.phis b)

theorem edgeCode_congr {save save' dst dst' : Site → Var} {s : Label}
    (hsave : ∀ t, t.block = b → save t = save' t) (hdst : ∀ t, t.block = b → dst t = dst' t) :
    p.edgeCode save dst s b = p.edgeCode save' dst' s b := by
  have hblock : ∀ t ∈ p.sitesOf b, t.block = b := fun t ht => (mem_sitesOf.1 ht).1
  rw [edgeCode, edgeCode, savedCopies_congr fun t ht => hsave t (hblock t ht),
    operandCopies_congr (fun t ht => hsave t (hblock t ht)) fun t ht => hdst t (hblock t ht)]

/-- The first round for a block. -/
theorem Finished.save {done : List Label} {save : Site → Var} (h : Finished p done save E l)
    (hp : p.WellFormed n) (hb : b ∉ done) :
    ∃ l₁ E₁, (p.sitesOf b).foldlM (saveSite (p.receivers b)) { l with detours := [] } = .ok l₁ ∧
      Saving p b E l (p.sitesOf b) E₁ l₁ := by
  have hnone : ∀ t, t.block = b → (E.read t).isSome ≠ true := by
    intro t ht hread
    exact hb (ht ▸ ((h.reads t).1 hread).1)
  have hstart : Saving p b E l [] E { l with detours := [] } := by
    refine ⟨⟨h.laid, fun s => ?_, h.splits, fun _ _ _ => rfl, fun _ _ => rfl, fun _ _ => .inr, ?_,
      h.fresh⟩, fun s => ?_, fun t ht => ?_, rfl, rfl, h.vars⟩
    · exact (between_eq_none fun hmem => hb (h.split s b hmem)).symm
    · show p.vars.size ≤ l.program.vars.size
      rw [h.vars, Nat.add_assoc]
      exact Nat.le_add_right _ _
    · rw [h.code, if_neg hb]
      rfl
    · exact iff_of_false (hnone t ht) fun hmem => absurd hmem.1 List.not_mem_nil
  obtain ⟨l₁, hrun, E₁, hsaving⟩ : ∃ l₁,
      (p.sitesOf b).foldlM (saveSite (p.receivers b)) { l with detours := [] } = .ok l₁ ∧
      ∃ E₁, Saving p b E l (p.sitesOf b) E₁ l₁ := by
    apply foldlM_ok_of_step fun past l₁ => ∃ E₁, Saving p b E l past E₁ l₁
    · rintro past t rest l₁ hsplit ⟨E₁, hsaving⟩
      obtain ⟨ht, hsome⟩ := mem_sitesOf.1 (show t ∈ p.sitesOf b by rw [hsplit]; simp)
      obtain ⟨a, ha⟩ := Option.isSome_iff_exists.1 hsome
      have hpast := notMem_before (nodup_sitesOf p b) hsplit
      obtain ⟨l₂, E₂, hstep, hsaving'⟩ := hsaving.step ht ha hpast hp
      exact ⟨l₂, hstep, E₂, hsaving'⟩
    · exact ⟨E, hstart⟩
  exact ⟨l₁, E₁, hrun, hsaving⟩

/-- The second round for a block. -/
theorem Saving.move {E₁ : Edits} {l₁ : Lowering} (h : Saving p b E l (p.sitesOf b) E₁ l₁)
    (hp : p.WellFormed n) : ∃ l₂ E₂, (p.sitesOf b).foldlM copySite l₁ = .ok l₂ ∧
      Moving p b E E₁ l₁ (p.sitesOf b) E₂ l₂ := by
  have hstart : Moving p b E E₁ l₁ [] E₁ l₁ := by
    refine ⟨h.editing, fun s => ?_, fun t ht => absurd ht List.not_mem_nil, fun _ _ => rfl, ?_, rfl,
      h.vars⟩
    · exact (List.append_nil _).symm
    · exact (List.append_nil _).symm
  obtain ⟨l₂, hrun, E₂, hmoving⟩ : ∃ l₂, (p.sitesOf b).foldlM copySite l₁ = .ok l₂ ∧
      ∃ E₂, Moving p b E E₁ l₁ (p.sitesOf b) E₂ l₂ := by
    apply foldlM_ok_of_step fun past l₂ => ∃ E₂, Moving p b E E₁ l₁ past E₂ l₂
    · rintro past t rest l₂ hsplit ⟨E₂, hmoving⟩
      have hmem : t ∈ p.sitesOf b := by rw [hsplit]; simp
      obtain ⟨ht, hsome⟩ := mem_sitesOf.1 hmem
      obtain ⟨a, ha⟩ := Option.isSome_iff_exists.1 hsome
      have hsaved : (E₁.read t).isSome = true ↔ a.value ∈ p.receivers b := by
        rw [h.reads t ht, isSaved, ha, ht]
        simp [hmem]
      have hpast := notMem_before (nodup_sitesOf p b) hsplit
      obtain ⟨l₃, E₃, hstep, hmoving'⟩ := hmoving.step ht ha hpast hsaved hp
      exact ⟨l₃, hstep, E₃, hmoving'⟩
    · exact ⟨E₁, hstart⟩
  exact ⟨l₂, E₂, hrun, hmoving⟩

/-- What operands are saved in, those of `b` as of the end of the first round. -/
def saveWith (save : Site → Var) (b : Label) (E₁ : Edits) (t : Site) : Var :=
  if t.block = b then (E₁.read t).getD 0 else save t

section Finished

variable {done : List Label} {save : Site → Var} {E₁ E₂ : Edits} {l₁ l₂ : Lowering}
  (h : Finished p done save E l) (hsaving : Saving p b E l (p.sitesOf b) E₁ l₁)
  (hmoving : Moving p b E E₁ l₁ (p.sitesOf b) E₂ l₂)

include h hsaving hmoving

/-- Edges to `b` have their copies, and other edges keep theirs. -/
theorem Finished.code_block (s c : Label) : E₂.code s c = if c ∈ done ++ [b] then
    p.edgeCode (saveWith save b E₁) (fun t => (E₂.read t).getD 0) s c else [] := by
  by_cases hc : c = b
  · subst hc
    have hblock : ∀ t ∈ p.sitesOf c, (E₁.read t).getD 0 = saveWith save c E₁ t := fun t ht =>
      (if_pos (mem_sitesOf.1 ht).1).symm
    rw [if_pos (List.mem_append_right _ List.mem_cons_self), hmoving.copies_on,
      hsaving.copies_on, edgeCode, savedCopies_congr hblock,
      operandCopies_congr hblock fun _ _ => rfl]
  · have hother : ∀ t : Site, t.block = c → t.block ≠ b := fun t ht => ht ▸ hc
    rw [hmoving.editing.code s c hc, h.code]
    simp only [List.mem_append, List.mem_singleton, or_iff_left hc]
    split
    · refine edgeCode_congr (fun t ht => (if_neg (hother t ht)).symm) fun t ht => ?_
      rw [hmoving.editing.read t (hother t ht)]
    · rfl

theorem Finished.reads_block (t : Site) : (E₂.read t).isSome = true ↔
    t.block ∈ done ++ [b] ∧ (p.argAt? t).isSome = true := by
  by_cases ht : t.block = b
  · rw [and_iff_right (ht ▸ List.mem_append_right _ List.mem_cons_self)]
    by_cases hmem : t ∈ p.sitesOf b
    · exact iff_of_true (hmoving.reads t hmem) (mem_sitesOf.1 hmem).2
    · rw [hmoving.waits t hmem, hsaving.reads t ht]
      exact iff_of_false (fun h => hmem h.1) fun h => hmem (mem_sitesOf.2 ⟨ht, h⟩)
  · rw [hmoving.editing.read t ht, h.reads, List.mem_append, List.mem_singleton, or_iff_left ht]

omit hmoving in
theorem Finished.fresh_save_block {t : Site} (ht : t.block ∈ done ++ [b])
    (hsaved : isSaved p t = true) : p.vars.size ≤ saveWith save b E₁ t := by
  rw [saveWith]
  by_cases hblock : t.block = b
  · have hmem : t ∈ p.sitesOf b := mem_sitesOf.2 ⟨hblock, isSome_of_isSaved hsaved⟩
    obtain ⟨y, hy⟩ := Option.isSome_iff_exists.1 ((hsaving.reads t hblock).2 ⟨hmem, hsaved⟩)
    rw [if_pos hblock, hy]
    exact hsaving.editing.fresh t y hy
  · rw [if_neg hblock]
    exact h.fresh_save t ((List.mem_append.1 ht).resolve_right fun hs =>
      hblock (List.mem_singleton.1 hs)) hsaved

/-- After the two rounds the phis of one more block have been lowered. -/
theorem Finished.append : Finished p (done ++ [b]) (saveWith save b E₁) E₂ l₂ where
  laid := hmoving.editing.laid
  splits := hmoving.editing.splits
  code := h.code_block hsaving hmoving
  split s c hmem := by
    rcases hmoving.editing.split s c hmem with rfl | hmem
    · exact List.mem_append_right _ List.mem_cons_self
    · exact List.mem_append_left _ (h.split s c hmem)
  reads := h.reads_block hsaving hmoving
  copies := by
    rw [hmoving.copies, hsaving.copies, h.copies, List.flatMap_append, List.flatMap_singleton]
  saved := by
    rw [hmoving.saved, hsaving.saved, h.saved, List.flatMap_append, List.flatMap_singleton,
      List.countP_append]
  vars := hmoving.vars
  fresh := hmoving.editing.fresh
  fresh_save _ := h.fresh_save_block hsaving

end Finished

theorem Finished.block {done : List Label} {save : Site → Var} (h : Finished p done save E l)
    (hp : p.WellFormed n) (hlt : b < p.blocks.size) (hb : b ∉ done) :
    ∃ l' E' save', lowerBlock l b = .ok l' ∧ Finished p (done ++ [b]) save' E' l' := by
  obtain ⟨block, hblock⟩ := exists_block (h.laid.lt_size hlt)
  have hphis : block.phis = p.phis b := by
    rw [← phis_of hblock]
    refine h.laid.phis_eq fun t ht => Option.not_isSome_iff_eq_none.1 fun hread => ?_
    exact hb (ht ▸ ((h.reads t).1 hread).1)
  obtain ⟨l₁, E₁, hsave, hsaving⟩ := h.save hp hb
  obtain ⟨l₂, E₂, hcopy, hmoving⟩ := hsaving.move hp
  have hsave' : (sites b (p.phis b)).foldlM (saveSite ((p.phis b).map (·.dst)))
      { l with detours := [] } = .ok l₁ := hsave
  refine ⟨l₂, E₂, _, ?_, h.append hsaving hmoving⟩
  simp only [lowerBlock, hblock, hphis, hsave']
  exact hcopy

/-- All phis are lowered. -/
theorem finished_lower (hp : p.WellFormed n) :
    ∃ l E save, p.lower = .ok l ∧ Finished p (List.range p.blocks.size) save E l := by
  obtain ⟨l, hrun, E, save, h⟩ : ∃ l, p.lower = .ok l ∧
      ∃ E save, Finished p (List.range p.blocks.size) save E l := by
    apply foldlM_ok_of_step fun done l => ∃ E save, Finished p done save E l
    · rintro done b rest l hsplit ⟨E, save, h⟩
      have hb : b < p.blocks.size := by
        rw [← List.mem_range, hsplit]
        simp
      obtain ⟨l', E', save', hstep, h'⟩ := h.block hp hb (notMem_before List.nodup_range hsplit)
      exact ⟨l', hstep, E', save', h'⟩
    · refine ⟨{}, fun _ => 0, Edits.laid_start hp.indexed, rfl, fun s c => ?_, ?_, fun t => ?_, rfl,
        rfl, rfl, nofun, ?_⟩
      · exact (if_neg List.not_mem_nil).symm
      · exact fun s c h => absurd h List.not_mem_nil
      · exact iff_of_false nofun fun h => absurd h.1 List.not_mem_nil
      · exact fun t h => absurd h List.not_mem_nil
  exact ⟨l, E, save, hrun, h⟩

end Lowering

end ChordalAlloc
