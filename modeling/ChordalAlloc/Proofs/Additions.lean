/-
ChordalAlloc/Proofs/Additions.lean

What lowering adds to the code, counted.

Here a program is taken as it comes: labels need not be positions, and the
source of an entry need not lead to its block.  All that lowering does is to
put copies to new variables before the last instruction of a block, to append
blocks of such copies with a jump at the end, and to send the last
instructions of blocks to these (`Program.Added`).  Each of the three edits
keeps this (`Added.insert`, `Added.append`, `Added.redirect`), so a step of
lowering does (`Account.route`), and the counts that lowering keeps agree with
the code (`Lowering.Account`, `account_lower`).
-/
import Mathlib.Algebra.BigOperators.Group.Finset.Piecewise
import ChordalAlloc.Proofs.Layout
import ChordalAlloc.Proofs.Lowering

namespace ChordalAlloc

open Program

/-! ### Counting instructions -/

namespace Program

/-- The number of instructions of a kind. -/
def count (p : Program) (kind : Instr → Bool) : Nat :=
  (p.blocks.toList.flatMap (·.body)).countP kind

variable {p q q' : Program} {kind : Instr → Bool}

/-- What is said of the blocks is said of their positions. -/
theorem map_blocks {α : Type} {f : Block → α} {g : Label → α}
    (h : ∀ b block, p.blocks[b]? = some block → f block = g b) :
    p.blocks.toList.map f = (List.range p.blocks.size).map g := by
  apply List.ext_getElem?
  intro b
  rw [List.getElem?_map, List.getElem?_map, Array.getElem?_toList]
  rcases Nat.lt_or_ge b p.blocks.size with hlt | hge
  · obtain ⟨block, hb⟩ := exists_block hlt
    rw [hb, List.getElem?_range hlt, Option.map_some, Option.map_some, h b block hb]
  · rw [Array.getElem?_eq_none hge, List.getElem?_eq_none (by rwa [List.length_range])]
    rfl

/-- Instructions are counted block by block. -/
theorem count_eq_sum (p : Program) (kind : Instr → Bool) :
    p.count kind = ∑ b ∈ Finset.range p.blocks.size, (p.body b).countP kind := by
  rw [count, List.flatMap_def, map_blocks fun b block hb => (body_of hb).symm, ← List.flatMap_def,
    List.countP_flatMap]
  rfl

/-- The same numbers for all blocks. -/
theorem count_congr (hsize : q'.blocks.size = q.blocks.size)
    (h : ∀ b, (q'.body b).countP kind = (q.body b).countP kind) : q'.count kind = q.count kind := by
  rw [count_eq_sum, count_eq_sum, hsize]
  exact Finset.sum_congr rfl fun b _ => h b

/-- Some more in one block. -/
theorem count_of_block {loc : Label} {k : Nat} (hsize : q'.blocks.size = q.blocks.size)
    (hloc : loc < q.blocks.size)
    (h : ∀ b, (q'.body b).countP kind = (q.body b).countP kind + if b = loc then k else 0) :
    q'.count kind = q.count kind + k := by
  rw [count_eq_sum, count_eq_sum, hsize, Finset.sum_congr rfl fun b _ => h b,
    Finset.sum_add_distrib, Finset.sum_ite_eq', if_pos (Finset.mem_range.2 hloc)]

/-- One more block. -/
theorem count_of_append (hsize : q'.blocks.size = q.blocks.size + 1)
    (h : ∀ b, b < q.blocks.size → (q'.body b).countP kind = (q.body b).countP kind) :
    q'.count kind = q.count kind + (q'.body q.blocks.size).countP kind := by
  rw [count_eq_sum, count_eq_sum, hsize, Finset.sum_range_succ,
    Finset.sum_congr rfl fun b hb => h b (Finset.mem_range.1 hb)]

end Program

/-! ### Edits -/

theorem countP_modify {kind : Instr → Bool} {f : Instr → Instr} (hf : ∀ i, kind (f i) = kind i)
    (is : List Instr) (k : Nat) : (is.modify k f).countP kind = is.countP kind := by
  induction is generalizing k with
  | nil => rw [List.modify_nil]
  | cons i is ih =>
    cases k with
    | zero => rw [List.modify_zero_cons, List.countP_cons, List.countP_cons, hf]
    | succ k => rw [List.modify_succ_cons, List.countP_cons, List.countP_cons, ih]

theorem Instr.isCopy_redirect (old new : Label) (i : Instr) :
    (i.redirect old new).isCopy = i.isCopy := by
  cases i <;> rfl

theorem Instr.redirect_beq_nop (old new : Label) (i : Instr) :
    (i.redirect old new == .nop) = (i == .nop) := by
  cases i <;> rfl

/-- The instruction copies to a variable from `n` on. -/
def Instr.SetsNew (n : Nat) (i : Instr) : Prop := ∃ x y, i = .copy x y ∧ n ≤ x

namespace Program

/-- Whatever a block is changed into, nothing becomes of no block. -/
theorem body_modifyBlock_of_nil {p : Program} {c : Label} {f : Block → Block}
    {g : List Instr → List Instr} (hf : ∀ x, (f x).body = g x.body) (hg : g [] = []) (b : Label) :
    (p.modifyBlock c f).body b = if b = c then g (p.body b) else p.body b := by
  rcases Nat.lt_or_ge c p.blocks.size with hlt | hge
  · exact body_modifyBlock hlt hf b
  · by_cases hb : b = c
    · rw [if_pos hb, hb, body_of_le (by rwa [size_modifyBlock]), body_of_le hge, hg]
    · rw [if_neg hb, body, modifyBlock, Array.getElem?_modify, if_neg (Ne.symm hb)]
      rfl

theorem receivers_congr {q q' : Program} {b : Label} (h : q'.phis b = q.phis b) :
    q'.receivers b = q.receivers b := by
  rw [receivers, h, receivers]

/-- The program `q` is `p` with some copies to new variables put in, before the last instructions
of blocks and in some blocks appended, which last instructions of `p` may have been sent to. -/
structure Added (p q : Program) (copies splits : Nat) : Prop where
  size : q.blocks.size = p.blocks.size + splits
  labels : ∀ b, b < p.blocks.size → q.label? b = p.label? b
  receivers : ∀ b, q.receivers b = p.receivers b
  copies : q.count Instr.isCopy = p.count Instr.isCopy + copies
  nops : q.count (· == .nop) = p.count (· == .nop)
  old : ∀ b init t, p.body b = init ++ [t] → ∃ code f, q.body b = init ++ code ++ [t.reroute f] ∧
    (∀ i ∈ code, i.SetsNew p.vars.size) ∧
    ∀ x, f x = x ∨ p.blocks.size ≤ f x ∧ f x < q.blocks.size
  new : ∀ b, p.blocks.size ≤ b → b < q.blocks.size → ∃ code x, q.body b = code ++ [.jump x] ∧
    ∀ i ∈ code, i.SetsNew p.vars.size

theorem Added.refl (p : Program) : Added p p 0 0 where
  size := rfl
  labels _ _ := rfl
  receivers _ := rfl
  copies := rfl
  nops := rfl
  old b init t hb := by
    refine ⟨[], id, ?_, fun i hi => absurd hi List.not_mem_nil, fun x => .inl rfl⟩
    rw [hb, Instr.reroute_id, List.append_nil]
  new b hge hlt := absurd hge (Nat.not_le_of_lt hlt)

variable {p q q' : Program} {copies splits : Nat}

/-- A change that leaves the code, the labels and what phis set as they are. -/
theorem Added.congr (h : Added p q copies splits) (hsize : q'.blocks.size = q.blocks.size)
    (hlabels : ∀ b, q'.label? b = q.label? b) (hreceivers : ∀ b, q'.receivers b = q.receivers b)
    (hbody : ∀ b, q'.body b = q.body b) : Added p q' copies splits where
  size := hsize.trans h.size
  labels b hb := (hlabels b).trans (h.labels b hb)
  receivers b := (hreceivers b).trans (h.receivers b)
  copies := (count_congr hsize fun b => by rw [hbody]).trans h.copies
  nops := (count_congr hsize fun b => by rw [hbody]).trans h.nops
  old b := by
    rw [hbody, hsize]
    exact h.old b
  new b := by
    rw [hbody, hsize]
    exact h.new b

/-- A copy put before a jump. -/
theorem Added.insert (h : Added p q copies splits) {loc x : Label} {pre : List Instr} {y z : Var}
    (hloc : q.body loc = pre ++ [.jump x]) (hy : p.vars.size ≤ y) :
    Added p (q.modifyBlock loc (·.insertAtEnd (.copy y z))) (copies + 1) splits := by
  have hlt : loc < q.blocks.size := lt_size_of_getLast? (by rw [hloc, List.getLast?_concat])
  have hbody : ∀ b, (q.modifyBlock loc (·.insertAtEnd (.copy y z))).body b =
      if b = loc then pre ++ [.copy y z, .jump x] else q.body b := by
    intro b
    have hmodify := body_modifyBlock (f := (·.insertAtEnd (.copy y z))) hlt (g := fun is =>
      (Block.insertAtEnd { label := 0, body := is } (.copy y z)).body) (fun _ => rfl) b
    rw [hmodify]
    split
    · next hb =>
      rw [hb]
      exact (Block.body_insertAtEnd hloc rfl _).2
    · rfl
  have hcount : ∀ (kind : Instr → Bool) b,
      ((q.modifyBlock loc (·.insertAtEnd (.copy y z))).body b).countP kind =
        (q.body b).countP kind + if b = loc then [Instr.copy y z].countP kind else 0 := by
    intro kind b
    rw [hbody]
    split
    · next hb =>
      rw [hb, hloc, List.countP_append, List.countP_append, ← List.singleton_append,
        List.countP_append]
      omega
    · rfl
  have hnew : ∀ {code : List Instr}, (∀ i ∈ code, i.SetsNew p.vars.size) →
      ∀ i ∈ code ++ [.copy y z], i.SetsNew p.vars.size := by
    intro code hcode i hi
    rcases List.mem_append.1 hi with hi | hi
    · exact hcode i hi
    · exact ⟨y, z, List.mem_singleton.1 hi, hy⟩
  refine ⟨?_, fun b hb => ?_, fun b => ?_, ?_, ?_, fun b init t hb => ?_, fun b hge hb => ?_⟩
  · rw [size_modifyBlock, h.size]
  · rw [← h.labels b hb]
    exact label?_modifyBlock (by intro; rfl) b
  · rw [← h.receivers]
    exact receivers_congr (phis_modifyBlock_eq (by intro; rfl) b)
  · rw [count_of_block (size_modifyBlock _ _ _) hlt (hcount _), h.copies]
    rfl
  · rw [count_of_block (size_modifyBlock _ _ _) hlt (hcount _), h.nops]
    rfl
  · obtain ⟨code, f, hq, hcode, hf⟩ := h.old b init t hb
    rw [hbody, size_modifyBlock]
    split
    · next heq =>
      -- the jump is what the last instruction has become
      rw [heq, hloc] at hq
      obtain ⟨rfl, hjump⟩ := List.append_inj' hq rfl
      refine ⟨code ++ [.copy y z], f, ?_, hnew hcode, hf⟩
      rw [← hjump]
      simp
    · exact ⟨code, f, hq, hcode, hf⟩
  · rw [size_modifyBlock] at hb
    obtain ⟨code, x', hq, hcode⟩ := h.new b hge hb
    rw [hbody]
    split
    · next heq =>
      rw [heq, hloc] at hq
      obtain ⟨rfl, -⟩ := List.append_inj' hq rfl
      exact ⟨pre ++ [.copy y z], x, by simp, hnew hcode⟩
    · exact ⟨code, x', hq, hcode⟩

/-- A block with a copy and a jump, appended. -/
theorem Added.append (h : Added p q copies splits) {x : Label} {y z : Var}
    (hy : p.vars.size ≤ y) :
    Added p (q.freshBlock [.copy y z, .jump x]).2 (copies + 1) (splits + 1) := by
  have hle : p.blocks.size ≤ q.blocks.size := h.size ▸ Nat.le_add_right _ _
  have hbody := q.body_freshBlock [.copy y z, .jump x]
  have hlast := (hbody q.blocks.size).trans (if_pos rfl)
  have hother : ∀ {b : Label}, b < q.blocks.size →
      (q.freshBlock [.copy y z, .jump x]).2.body b = q.body b :=
    fun hb => (hbody _).trans (if_neg (Nat.ne_of_lt hb))
  refine ⟨?_, fun b hb => ?_, fun b => ?_, ?_, ?_, fun b init t hb => ?_, fun b hge hb => ?_⟩
  · rw [size_freshBlock, h.size, Nat.add_assoc]
  · rw [label?_freshBlock, if_neg (Nat.ne_of_lt (Nat.lt_of_lt_of_le hb hle)), h.labels b hb]
  · rw [← h.receivers]
    exact receivers_congr (phis_freshBlock _ _ _)
  · rw [count_of_append (size_freshBlock _ _) (fun b hb => by rw [hother hb]), hlast, h.copies]
    rfl
  · rw [count_of_append (size_freshBlock _ _) (fun b hb => by rw [hother hb]), hlast, h.nops]
    rfl
  · obtain ⟨code, f, hq, hcode, hf⟩ := h.old b init t hb
    have hlt : b < q.blocks.size := lt_size_of_getLast? (by rw [hq, List.getLast?_concat])
    refine ⟨code, f, (hother hlt).trans hq, hcode, fun i => (hf i).imp id fun hi => ?_⟩
    rw [size_freshBlock]
    exact ⟨hi.1, Nat.lt_succ_of_lt hi.2⟩
  · rw [size_freshBlock] at hb
    rcases Nat.lt_succ_iff_lt_or_eq.1 hb with hlt | rfl
    · rw [hother hlt]
      exact h.new b hge hlt
    · refine ⟨[.copy y z], x, hlast, fun i hi => ⟨y, z, List.mem_singleton.1 hi, hy⟩⟩

/-- The last instruction of a block sent to an appended one. -/
theorem Added.redirect (h : Added p q copies splits) {c x e : Label} (hge : p.blocks.size ≤ e)
    (hlt : e < q.blocks.size) : Added p (q.modifyBlock c (·.redirect x e)) copies splits := by
  have hbody : ∀ b, (q.modifyBlock c (·.redirect x e)).body b = if b = c then
      (q.body b).modify ((q.body b).length - 1) (·.redirect x e) else q.body b := fun b =>
    body_modifyBlock_of_nil (g := fun is => is.modify (is.length - 1) (·.redirect x e))
      (fun _ => rfl) rfl b
  have hcount : ∀ {kind : Instr → Bool}, (∀ i : Instr, kind (i.redirect x e) = kind i) →
      ∀ b, ((q.modifyBlock c (·.redirect x e)).body b).countP kind = (q.body b).countP kind := by
    intro kind hkind b
    rw [hbody]
    split
    · exact countP_modify hkind _ _
    · rfl
  refine ⟨?_, fun b hb => ?_, fun b => ?_, ?_, ?_, fun b init t hb => ?_, fun b hge' hb => ?_⟩
  · rw [size_modifyBlock, h.size]
  · rw [← h.labels b hb]
    exact label?_modifyBlock (by intro; rfl) b
  · rw [← h.receivers]
    exact receivers_congr (phis_modifyBlock_eq (by intro; rfl) b)
  · rw [count_congr (size_modifyBlock _ _ _) (hcount (Instr.isCopy_redirect x e)), h.copies]
  · rw [count_congr (size_modifyBlock _ _ _) (hcount (Instr.redirect_beq_nop x e)), h.nops]
  · obtain ⟨code, f, hq, hcode, hf⟩ := h.old b init t hb
    rw [hbody, size_modifyBlock]
    split
    · refine ⟨code, fun i => (f i).redirect x e, ?_, hcode, fun i => ?_⟩
      · rw [hq, modify_concat, Instr.redirect_reroute]
      · beta_reduce
        by_cases hx : f i = x
        · rw [show (f i).redirect x e = e from if_pos hx]
          exact .inr ⟨hge, hlt⟩
        · rw [show (f i).redirect x e = f i from if_neg hx]
          exact hf i
    · exact ⟨code, f, hq, hcode, hf⟩
  · rw [size_modifyBlock] at hb
    obtain ⟨code, x', hq, hcode⟩ := h.new b hge' hb
    rw [hbody]
    split
    · exact ⟨code, x'.redirect x e, by rw [hq, modify_concat]; rfl, hcode⟩
    · exact ⟨code, x', hq, hcode⟩

end Program

/-! ### Steps -/

namespace Lowering

variable {p : Program} {l l' : Lowering}

/-- The counts agree with the code, operands exist, and a record names the operand that reads its
copy. -/
structure Account (p : Program) (l : Lowering) : Prop where
  added : Added p l.program (l.copies.size + l.saved) l.splits
  vars : l.program.vars.size = p.vars.size + l.copies.size + l.saved
  args : ∀ s a, l.program.argAt? s = some a → a.value < l.program.vars.size
  records : ∀ c ∈ l.copies.toList, p.vars.size ≤ c.dst ∧ c.value < l.program.vars.size ∧
    l.program.argAt? c.site = some ⟨c.location, c.dst⟩

/-- A copy goes before a jump, or into a block of its own. -/
theorem putCopy_eq_ok {source target loc : Label} {copy : Instr} {k : Nat}
    (h : l.putCopy source target copy = .ok (l', loc, k)) :
    (∃ pre x, l.program.body loc = pre ++ [.jump x] ∧
      l' = { l with program := l.program.modifyBlock loc (·.insertAtEnd copy) }) ∨
    loc = l.program.blocks.size ∧ l' = (l.splitEdge source target copy).1 := by
  rw [putCopy] at h
  dsimp only at h
  split at h
  · cases h
  next block hb =>
  split at h
  next x ht =>
    cases h
    rw [Block.terminator?, Option.filter_eq_some_iff] at ht
    obtain ⟨pre, hbody⟩ := List.getLast?_eq_some_iff.1 ht.1
    exact .inl ⟨pre, x, (body_of hb).trans hbody, rfl⟩
  · cases h
    exact .inr ⟨rfl, rfl⟩

/-- A step of lowering gives the operand at `s` a new variable. -/
structure Gives (p : Program) (l l' : Lowering) (s : Site) (spot : Placed) : Prop where
  added : Added p l'.program (l.copies.size + l.saved + 1) l'.splits
  vars : l'.program.vars.size = l.program.vars.size + 1
  dst : spot.dst = l.program.vars.size
  args : ∀ t, l'.program.argAt? t =
    if t = s then some ⟨spot.location, spot.dst⟩ else l.program.argAt? t
  copies : l'.copies = l.copies
  saved : l'.saved = l.saved

theorem Account.putCopy (h : Account p l) {source target loc : Label} {x : Var} {k : Nat}
    (hput : l.withFreshVar.putCopy source target (.copy l.program.vars.size x)
      = .ok (l', loc, k)) :
    Added p l'.program (l.copies.size + l.saved + 1) l'.splits ∧
      l'.program.vars.size = l.program.vars.size + 1 ∧
      (∀ b, l'.program.phis b = l.program.phis b) ∧ l'.copies = l.copies ∧ l'.saved = l.saved := by
  have hvars : p.vars.size ≤ l.program.vars.size := by
    rw [h.vars, Nat.add_assoc]
    exact Nat.le_add_right _ _
  have hadded : Added p l.withFreshVar.program (l.copies.size + l.saved) l.splits :=
    h.added.congr rfl (fun _ => rfl) (fun _ => rfl) fun _ => rfl
  rcases putCopy_eq_ok hput with ⟨pre, y, hbody, rfl⟩ | ⟨-, rfl⟩
  · refine ⟨hadded.insert hbody hvars, Array.size_push _, fun b => ?_, rfl, rfl⟩
    exact phis_modifyBlock_eq (p := l.withFreshVar.program) (by intro; rfl) b
  · refine ⟨(hadded.append hvars).redirect ?_ ?_, Array.size_push _, fun b => ?_, rfl, rfl⟩
    · exact h.added.size ▸ Nat.le_add_right _ _
    · rw [size_freshBlock]
      exact Nat.lt_succ_self _
    · exact (phis_modifyBlock_eq (by intro; rfl) b).trans (phis_freshBlock _ _ b)

theorem Account.route (h : Account p l) {s : Site} {a : PhiArg} {spot : Placed}
    (ha : l.program.argAt? s = some a) (hrun : l.route s a = .ok (l', spot)) :
    Gives p l l' s spot := by
  rcases hput : l.withFreshVar.putCopy a.source s.block (.copy l.program.vars.size a.value)
    with e | ⟨m, loc, k⟩
  · simp only [withFreshVar, freshVar] at hput
    simp only [Lowering.route, freshVar, hput] at hrun
    cases hrun
  · obtain ⟨hadded, hvars, hphis, hcopies, hsaved⟩ := h.putCopy hput
    have harg : m.program.argAt? s = some a := (argAt?_congr hphis s).trans ha
    cases (route_of_putCopy hput harg).symm.trans hrun
    refine ⟨hadded.congr (size_modifyBlock _ _ _) (label?_setArg _ _ _) (receivers_setArg _ _ _)
      (body_setArg _ _ _), hvars, rfl, fun t => ?_, hcopies, hsaved⟩
    exact (argAt?_setArg harg _ t).trans (if_congr Iff.rfl rfl (argAt?_congr hphis t))

namespace Gives

variable {s : Site} {spot : Placed} (h : Gives p l l' s spot)

include h

/-- Operands still exist. -/
theorem value_lt (hl : Account p l) {t : Site} {a : PhiArg} (ha : l'.program.argAt? t = some a) :
    a.value < l'.program.vars.size := by
  rw [h.args] at ha
  rw [h.vars]
  split at ha
  · cases ha
    exact h.dst ▸ Nat.lt_succ_self _
  · exact Nat.lt_succ_of_lt (hl.args t a ha)

/-- The records of other operands stay true. -/
theorem record (hl : Account p l) {c : EdgeCopy} (hc : c ∈ l.copies.toList) (hne : c.site ≠ s) :
    p.vars.size ≤ c.dst ∧ c.value < l'.program.vars.size ∧
      l'.program.argAt? c.site = some ⟨c.location, c.dst⟩ := by
  obtain ⟨hdst, hvalue, harg⟩ := hl.records c hc
  rw [h.args, if_neg hne, h.vars]
  exact ⟨hdst, Nat.lt_succ_of_lt hvalue, harg⟩

end Gives

theorem Account.saveSite (h : Account p l) {set : List Var} {s : Site}
    (hnew : ∀ c ∈ l.copies.toList, c.site ≠ s) (hrun : l.saveSite set s = .ok l') :
    Account p l' ∧ l'.copies = l.copies := by
  rw [Lowering.saveSite] at hrun
  rcases ha : l.program.phiArg? s.block s.phi s.arg with - | a
  · rw [ha] at hrun
    cases hrun
  rw [ha] at hrun
  dsimp only at hrun
  split at hrun
  · obtain ⟨⟨m, spot⟩, hroute, hm⟩ := Except.bind_eq_ok.1 hrun
    cases hm
    have hgives := h.route ha hroute
    refine ⟨⟨?_, ?_, fun t a' => hgives.value_lt h, fun c hc => ?_⟩, hgives.copies⟩
    · show Added p m.program (m.copies.size + (m.saved + 1)) m.splits
      rw [hgives.copies, hgives.saved]
      exact hgives.added
    · show m.program.vars.size = p.vars.size + m.copies.size + (m.saved + 1)
      rw [hgives.vars, hgives.copies, hgives.saved, h.vars, Nat.add_assoc]
    · have hc : c ∈ l.copies.toList := hgives.copies ▸ hc
      exact hgives.record h hc (hnew c hc)
  · cases hrun
    exact ⟨h, rfl⟩

theorem Account.copySite (h : Account p l) {s : Site}
    (hnew : ∀ c ∈ l.copies.toList, c.site ≠ s) (hrun : l.copySite s = .ok l') :
    Account p l' ∧ ∃ c, c.site = s ∧ l'.copies = l.copies.push c := by
  rw [Lowering.copySite] at hrun
  rcases ha : l.program.phiArg? s.block s.phi s.arg with - | a
  · rw [ha] at hrun
    cases hrun
  rw [ha] at hrun
  obtain ⟨⟨m, spot⟩, hroute, hm⟩ := Except.bind_eq_ok.1 hrun
  cases hm
  have hgives := h.route ha hroute
  refine ⟨⟨?_, ?_, fun t a' => hgives.value_lt h, fun c hc => ?_⟩, ⟨s, _, _, _, _⟩, rfl,
    congrArg (Array.push · _) hgives.copies⟩
  · show Added p m.program ((m.copies.push _).size + m.saved) m.splits
    rw [Array.size_push, hgives.copies, hgives.saved, Nat.add_right_comm]
    exact hgives.added
  · show m.program.vars.size = p.vars.size + (m.copies.push _).size + m.saved
    rw [Array.size_push, hgives.vars, hgives.copies, hgives.saved, h.vars]
    omega
  · have hc : c ∈ (m.copies.push _).toList := hc
    rw [Array.toList_push, hgives.copies] at hc
    rcases List.mem_append.1 hc with hc | hc
    · exact hgives.record h hc (hnew c hc)
    · cases List.mem_singleton.1 hc
      refine ⟨?_, ?_, (hgives.args s).trans (if_pos rfl)⟩
      · show p.vars.size ≤ spot.dst
        rw [hgives.dst, h.vars]
        omega
      · show a.value < m.program.vars.size
        rw [hgives.vars]
        exact Nat.lt_succ_of_lt (h.args s a ha)

/-! ### The whole run -/

theorem Account.saveSites (h : Account p l) {set : List Var} {ss : List Site}
    (hnew : ∀ c ∈ l.copies.toList, c.site ∉ ss)
    (hrun : ss.foldlM (Lowering.saveSite set) l = .ok l') :
    Account p l' ∧ l'.copies = l.copies := by
  refine foldlM_of_ok (fun _ (m : Lowering) => Account p m ∧ m.copies = l.copies) ?_ ⟨h, rfl⟩ hrun
  rintro past s rest m m' hsplit ⟨hm, hcopies⟩ hstep
  have hs : s ∈ ss := hsplit ▸ List.mem_append_right _ List.mem_cons_self
  obtain ⟨hm', hcopies'⟩ := hm.saveSite (fun c hc hcs => hnew c (hcopies ▸ hc) (hcs ▸ hs)) hstep
  exact ⟨hm', hcopies'.trans hcopies⟩

/-- The work on a block, of which nothing was recorded before. -/
theorem Account.lowerBlock (h : Account p l) {b : Label}
    (hnew : ∀ c ∈ l.copies.toList, c.site.block ≠ b) (hrun : l.lowerBlock b = .ok l') :
    Account p l' ∧ ∀ c ∈ l'.copies.toList, c ∈ l.copies.toList ∨ c.site.block = b := by
  rw [Lowering.lowerBlock] at hrun
  rcases hb : l.program.blocks[b]? with - | block
  · rw [hb] at hrun
    cases hrun
  rw [hb] at hrun
  obtain ⟨m, hsave, hcopy⟩ := Except.bind_eq_ok.1 hrun
  have hsites : ∀ s ∈ sites b block.phis, s.block = b := fun s hs => (mem_sites.1 hs).1
  obtain ⟨hm, hcopies⟩ := Account.saveSites (l := { l with detours := [] })
    ⟨h.added, h.vars, h.args, h.records⟩ (fun c hc hs => hnew c hc (hsites _ hs)) hsave
  have hend : Account p l' ∧ ∀ c ∈ l'.copies.toList,
      c ∈ l.copies.toList ∨ c.site ∈ sites b block.phis := by
    refine foldlM_of_ok (fun past (m : Lowering) => Account p m ∧
      ∀ c ∈ m.copies.toList, c ∈ l.copies.toList ∨ c.site ∈ past) ?_
      ⟨hm, fun c hc => .inl (hcopies ▸ hc)⟩ hcopy
    rintro past s rest m m' hsplit ⟨hm, hold⟩ hstep
    -- the operand has no record yet, since no site comes twice
    have hfresh : ∀ c ∈ m.copies.toList, c.site ≠ s := by
      rintro c hc rfl
      rcases hold c hc with hc | hc
      · refine hnew c hc (hsites _ ?_)
        rw [hsplit]
        simp
      · exact notMem_before (nodup_sites b block.phis) hsplit hc
    obtain ⟨hm', c', hsite, hcopies'⟩ := hm.copySite hfresh hstep
    refine ⟨hm', fun c hc => ?_⟩
    rw [hcopies', Array.toList_push] at hc
    rcases List.mem_append.1 hc with hc | hc
    · exact (hold c hc).imp id (List.mem_append_left _)
    · rw [List.mem_singleton.1 hc, hsite]
      exact .inr (List.mem_append_right _ List.mem_cons_self)
  exact ⟨hend.1, fun c hc => (hend.2 c hc).imp id (hsites _)⟩

/-- **What lowering counts is what it has added.** -/
theorem account_lower (hargs : ∀ s a, p.argAt? s = some a → a.value < p.vars.size)
    (hrun : p.lower = .ok l) : Account p l := by
  refine (foldlM_of_ok (fun done (m : Lowering) => Account p m ∧
    ∀ c ∈ m.copies.toList, c.site.block ∈ done) ?_ ⟨?_, ?_⟩ hrun).1
  · rintro done b rest m m' hsplit ⟨hm, hdone⟩ hstep
    have hb : b ∉ done := notMem_before List.nodup_range hsplit
    obtain ⟨hm', hold⟩ := hm.lowerBlock (b := b) (fun c hc heq => hb (heq ▸ hdone c hc)) hstep
    refine ⟨hm', fun c hc => ?_⟩
    rcases hold c hc with hc | rfl
    · exact List.mem_append_left _ (hdone c hc)
    · exact List.mem_append_right _ List.mem_cons_self
  · exact ⟨Added.refl p, rfl, hargs, fun c hc => absurd hc List.not_mem_nil⟩
  · exact fun c hc => absurd hc List.not_mem_nil

end Lowering

end ChordalAlloc
