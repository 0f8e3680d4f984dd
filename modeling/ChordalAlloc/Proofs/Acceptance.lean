/-
ChordalAlloc/Proofs/Acceptance.lean

Which programs pass the check: exactly those that are well formed
(`Program.check_exact`).

A program that passes is well formed, as was shown before.  For the converse
the check is followed step by step.  What it has met so far is a list of
definitions without repeats (`Check.Tracks`), and a step goes through if it
defines nothing on that list (`Tracks.exists_instr`, `Tracks.exists_phi`,
`Tracks.exists_block`).  A variable with a single site is listed once
(`WellFormed.nodup_definitions`), so the check finds nothing defined twice.
The entries of a phi are as many as there are predecessors, since neither
list has repeats and both have the same members.

The table of definitions is only asked about variables that exist: what is set
is looked at right before, and when reads are looked up, all operands have been
checked.  So nothing changes if a request beyond the end of a table is made a
breach (`Program.checkWithin`), and there is none.
-/
import ChordalAlloc.Proofs.AnalysisWithin
import ChordalAlloc.Proofs.Lowering

namespace ChordalAlloc

/-! ### Looking up definitions -/

namespace Check

/-- As `setOnce`, where a request beyond the end of the table of definitions is a breach. -/
def setOnceWithin (n : Nat) (defined : IndexSet) (v : Var) : Except Error IndexSet := do
  var n v
  if ← require (.breach .index) (defined.read? v) then throw (.defect (.redefined v))
  require (.breach .index) (defined.add? v)

/-- As `instr`, for a table of definitions that need not be that of the `n` variables. -/
def instrWithin (n : Nat) (b : Block) (blocks : Nat) (defined : IndexSet) (i : Instr) (k : Nat) :
    Except Error IndexSet := do
  if i.isTerminator && k + 1 != b.body.length then
    throw (.defect (.earlyTerminator b.label k))
  i.reads.forM (var n)
  let defined ← i.dst?.toList.foldlM (setOnceWithin n) defined
  i.targets.forM (label blocks)
  return defined

/-- As `phi`, for a table of definitions that need not be that of the `n` variables. -/
def phiWithin (n blocks : Nat) (defined : IndexSet) (φ : Phi) : Except Error IndexSet := do
  let defined ← setOnceWithin n defined φ.dst
  φ.args.forM fun a => do
    var n a.value
    label blocks a.source
  return defined

/-- As `block`, for a table of definitions that need not be that of the `n` variables. -/
def blockWithin (n blocks : Nat) (defined : IndexSet) (b : Block) : Except Error IndexSet := do
  if b.terminator?.isNone then throw (.unterminated b.label)
  let defined ← b.body.zipIdx.foldlM (fun s (i, k) => instrWithin n b blocks s i k) defined
  b.phis.foldlM (phiWithin n blocks) defined

/-- As `reads`, where a look beyond the end of the table of definitions is a breach. -/
def readsWithin (defined : IndexSet) (b : Block) : Except Error Unit :=
  b.reads.forM fun v =>
    if v < defined.capacity then
      if defined.contains v then .ok () else .error (.defect (.undefined b.label v))
    else .error (.breach .index)

end Check

/-- As `Program.check`, where a request beyond the end of a table is a breach: of the table of
definitions, and of the rows of predecessors. -/
def Program.checkWithin (p : Program) (params : Nat) : Except Error Unit := do
  if p.blocks.isEmpty then throw (.defect .noEntry)
  if p.vars.size ≤ params then throw (.noSuchVar params)
  p.vars.toList.zipIdx.forM fun x => Check.slot x.1 x.2
  let entry := IndexSet.ofList p.vars.size (List.range (params + 1))
  let defined ← p.blocks.toList.foldlM (Check.blockWithin p.vars.size p.blocks.size) entry
  p.blocks.toList.forM (Check.readsWithin defined)
  let f ← require (.breach .index) p.flowWithin
  p.blocks.toList.forM (Check.phis f)

namespace Check

variable {n blocks : Nat} {s s' : IndexSet} {ds : List Var}

/-- A variable that exists has an entry in the table. -/
theorem Tracks.setOnceWithin_eq (h : Tracks n s ds) (v : Var) :
    setOnceWithin n s v = Check.setOnce s v := by
  rw [setOnceWithin, Check.setOnce, h.capacity]
  refine Except.bind_congr fun _ hv => ?_
  have hlt : v < s.capacity := h.capacity.symm ▸ var_eq_ok.1 hv
  rw [IndexSet.read?_eq hlt, require_bind, IndexSet.add?_eq hlt]
  rfl

/-- Folds that keep track of what is set agree if their steps do. -/
theorem Tracks.foldlM_congr {α : Type} {f g : IndexSet → α → Except Error IndexSet} {xs : List α}
    (h : Tracks n s ds) (hstep : ∀ x s ds, Tracks n s ds → f s x = g s x)
    (hkeep : ∀ x s s' ds, Tracks n s ds → g s x = .ok s' → ∃ ds', Tracks n s' ds') :
    xs.foldlM f s = xs.foldlM g s := by
  refine ChordalAlloc.foldlM_congr (fun s => ∃ ds, Tracks n s ds) ?_ ?_ ⟨ds, h⟩
  · rintro x - s ⟨ds, hs⟩
    exact hstep x s ds hs
  · rintro x - s s' ⟨ds, hs⟩ hok
    exact hkeep x s s' ds hs hok

theorem Tracks.instrWithin_eq (h : Tracks n s ds) (b : Block) (i : Instr) (k : Nat) :
    instrWithin n b blocks s i k = Check.instr b blocks s i k := by
  have hdst : i.dst?.toList.foldlM (setOnceWithin n) s = i.dst?.toList.foldlM Check.setOnce s :=
    h.foldlM_congr (fun v _ _ hs => hs.setOnceWithin_eq v)
      fun _ _ _ _ hs hok => ⟨_, hs.setOnce hok⟩
  rw [instrWithin, Check.instr, hdst, h.capacity]

theorem Tracks.phiWithin_eq (h : Tracks n s ds) (φ : Phi) :
    phiWithin n blocks s φ = Check.phi blocks s φ := by
  rw [phiWithin, Check.phi, h.setOnceWithin_eq]
  refine Except.bind_congr fun s' hs' => ?_
  rw [(h.setOnce hs').capacity]

theorem Tracks.blockWithin_eq (h : Tracks n s ds) (b : Block) :
    blockWithin n blocks s b = Check.block blocks s b := by
  have hbody : b.body.zipIdx.foldlM (fun s x => instrWithin n b blocks s x.1 x.2) s =
      b.body.zipIdx.foldlM (fun s x => Check.instr b blocks s x.1 x.2) s :=
    h.foldlM_congr (fun x _ _ hs => hs.instrWithin_eq b x.1 x.2)
      fun _ _ _ _ hs hok => ⟨_, (hs.instr hok).1⟩
  rw [blockWithin, Check.block, hbody]
  refine if_congr Iff.rfl rfl (Except.bind_congr fun t ht => ?_)
  have htrack := (h.foldlM (fun s s' ds x hs hx => hs.instr hx) ht).1
  exact htrack.foldlM_congr (fun φ _ _ hs => hs.phiWithin_eq φ)
    fun _ _ _ _ hs hok => ⟨_, (hs.phi hok).1⟩

end Check

/-! ### No breach -/

/-- The computation does not end in a breach. -/
def Safe {α : Type} (x : Except Error α) : Prop := ∀ why, x ≠ .error (.breach why)

section Safe

variable {α β : Type} {x : Except Error α}

theorem safe_ok (a : α) : Safe (.ok a : Except Error α) := by
  intro why h
  cases h

theorem safe_error {e : Error} (he : ∀ why, e ≠ .breach why) :
    Safe (.error e : Except Error α) := by
  intro why h
  cases h
  exact he why rfl

theorem Safe.bind {f : α → Except Error β} (hx : Safe x) (hf : ∀ a, Safe (f a)) :
    Safe (x >>= f) := by
  rcases x with e | a
  · exact safe_error fun why he => hx why (by rw [he])
  · exact hf a

theorem Safe.ite {y : Except Error α} {c : Prop} [Decidable c] (hx : Safe x) (hy : Safe y) :
    Safe (if c then x else y) := by
  split
  · exact hx
  · exact hy

/-- A computation behind a check that stops for another reason. -/
theorem Safe.guard {c : Prop} [Decidable c] {e : Error} {f : β → Except Error α}
    (he : ∀ why, e ≠ .breach why) (hx : Safe x) : Safe (if c then throw e >>= f else x) :=
  .ite (safe_error he) hx

theorem Safe.forM {xs : List β} {f : β → Except Error Unit} (h : ∀ x, Safe (f x)) :
    Safe (xs.forM f) := by
  intro why hstop
  obtain ⟨x, -, hx⟩ := forM_eq_error hstop
  exact h x why hx

theorem Safe.foldlM {xs : List β} {f : α → β → Except Error α} (h : ∀ s x, Safe (f s x)) (s : α) :
    Safe (xs.foldlM f s) := by
  intro why hstop
  obtain ⟨x, -, t, hx⟩ := foldlM_eq_error hstop
  exact h t x why hx

end Safe

namespace Check

theorem safe_var (n : Nat) (v : Var) : Safe (var n v) :=
  .ite (safe_ok ()) (safe_error (by simp))

theorem safe_label (n : Nat) (b : Label) : Safe (label n b) :=
  .ite (safe_ok ()) (safe_error (by simp))

theorem safe_slot (v : Variable) (i : Nat) : Safe (slot v i) :=
  .guard (by simp) (.ite (safe_error (by simp)) (safe_ok ()))

theorem safe_setOnce (s : IndexSet) (v : Var) : Safe (setOnce s v) :=
  (safe_var _ v).bind fun _ => .guard (by simp) (safe_ok _)

theorem safe_instr (b : Block) (blocks : Nat) (s : IndexSet) (i : Instr) (k : Nat) :
    Safe (instr b blocks s i k) := by
  refine .guard (by simp) ((Safe.forM (safe_var _)).bind fun _ => ?_)
  exact (Safe.foldlM safe_setOnce s).bind fun s' =>
    (Safe.forM (safe_label _)).bind fun _ => safe_ok s'

theorem safe_phi (blocks : Nat) (s : IndexSet) (φ : Phi) : Safe (phi blocks s φ) := by
  refine (safe_setOnce s φ.dst).bind fun s' => (Safe.forM fun a => ?_).bind fun _ => safe_ok s'
  exact (safe_var _ _).bind fun _ => safe_label _ _

theorem safe_block (blocks : Nat) (s : IndexSet) (b : Block) : Safe (block blocks s b) :=
  .guard (by simp) ((Safe.foldlM (fun s (x : Instr × Nat) => safe_instr b blocks s x.1 x.2) s).bind
    (Safe.foldlM (safe_phi blocks)))

theorem safe_reads (s : IndexSet) (b : Block) : Safe (reads s b) :=
  .forM fun _ => .ite (safe_ok ()) (safe_error (by simp))

theorem safe_phiArg (b : Block) (φ : Phi) (preds : List Label) (a : PhiArg) (k : Nat) :
    Safe (phiArg b φ preds a k) :=
  .guard (by simp) (.ite (safe_error (by simp)) (safe_ok ()))

theorem safe_phiArgs (b : Block) (preds : List Label) (φ : Phi) : Safe (phiArgs b preds φ) :=
  .guard (by simp) (.forM fun (x : PhiArg × Nat) => safe_phiArg b φ preds x.1 x.2)

theorem safe_phis (f : Flow) (b : Block) : Safe (phis f b) :=
  .guard (by simp) (.forM (safe_phiArgs b (f.pred b.label)))

end Check

namespace Program

/-- The check has an answer for every program. -/
theorem safe_check (p : Program) (n : Nat) : Safe (p.check n) := by
  refine .guard (by simp) (.guard (by simp) ?_)
  refine (Safe.forM fun (x : Variable × Nat) => Check.safe_slot x.1 x.2).bind fun _ => ?_
  refine (Safe.foldlM (Check.safe_block _) _).bind fun s => ?_
  exact (Safe.forM (Check.safe_reads s)).bind fun _ => .forM (Check.safe_phis _)

end Program

/-! ### Steps that pass -/

namespace Check

variable {n blocks : Nat} {s : IndexSet} {ds : List Var}

theorem BlockOk.reads_lt {b : Block} (h : BlockOk n blocks b) {v : Var} (hv : v ∈ b.reads) :
    v < n := by
  rcases List.mem_append.1 hv with hv | hv
  · obtain ⟨φ, hφ, hv⟩ := List.mem_flatMap.1 hv
    exact (h.phis φ hφ).reads v hv
  · obtain ⟨i, hi, hv⟩ := List.mem_flatMap.1 hv
    obtain ⟨k, hk⟩ := List.mem_iff_getElem?.1 hi
    exact (h.instrs k i hk).reads v hv

theorem Tracks.exists_setOnce {v : Var} (h : Tracks n s ds) (hv : v < n) (hnew : v ∉ ds) :
    ∃ s', Check.setOnce s v = .ok s' := by
  refine ⟨s.insert v, setOnce_eq_ok.2 ⟨h.capacity.symm ▸ hv, ?_, rfl⟩⟩
  rw [← Bool.not_eq_true, h.contains v]
  exact hnew

/-- A fold passes if every step does that defines nothing known. -/
theorem Tracks.exists_foldlM {α : Type} {f : IndexSet → α → Except Error IndexSet}
    {g : α → List Var} {P : α → Prop} {xs : List α}
    (hstep : ∀ s s' ds x, Tracks n s ds → f s x = .ok s' → Tracks n s' (ds ++ g x) ∧ P x)
    (hpass : ∀ s ds x, x ∈ xs → Tracks n s ds → (ds ++ g x).Nodup → ∃ s', f s x = .ok s')
    (h : Tracks n s ds) (hnodup : (ds ++ xs.flatMap g).Nodup) : ∃ s', xs.foldlM f s = .ok s' := by
  induction xs generalizing s ds with
  | nil => exact ⟨s, rfl⟩
  | cons x xs ih =>
    rw [List.flatMap_cons, ← List.append_assoc] at hnodup
    obtain ⟨t, ht⟩ := hpass s ds x List.mem_cons_self h (List.nodup_append.1 hnodup).1
    obtain ⟨s', hs'⟩ := ih (fun s ds y hy => hpass s ds y (List.mem_cons_of_mem x hy))
      (hstep s t ds x h ht).1 hnodup
    exact ⟨s', by rw [List.foldlM_cons, ht]; exact hs'⟩

theorem Tracks.exists_instr {b : Block} {i : Instr} {k : Nat} (h : Tracks n s ds)
    (hi : InstrOk n blocks b i k) (hlt : ∀ v ∈ i.dst?, v < n)
    (hnodup : (ds ++ i.dst?.toList).Nodup) : ∃ s', Check.instr b blocks s i k = .ok s' := by
  obtain ⟨s', hs'⟩ : ∃ s', i.dst?.toList.foldlM Check.setOnce s = .ok s' := by
    rcases hd : i.dst? with - | v
    · exact ⟨s, rfl⟩
    · rw [hd] at hnodup
      obtain ⟨s', hs'⟩ := h.exists_setOnce (hlt v hd) fun hv =>
        (List.nodup_append.1 hnodup).2.2 v hv v List.mem_cons_self rfl
      exact ⟨s', by rw [Option.toList_some, List.foldlM_cons, hs']; rfl⟩
  refine ⟨s', ?_⟩
  simp only [Check.instr, ite_throw_bind_eq_ok, Except.bind_eq_ok, h.capacity]
  refine ⟨by simpa using hi.last, (), forM_eq_ok.2 fun v hv => ?_, s', hs', (),
    forM_eq_ok.2 fun t ht => ?_, rfl⟩
  · exact var_eq_ok.2 (hi.reads v hv)
  · exact label_eq_ok.2 (hi.targets t ht)

theorem Tracks.exists_phi {φ : Phi} (h : Tracks n s ds) (hφ : PhiOk n blocks φ) (hlt : φ.dst < n)
    (hnodup : (ds ++ [φ.dst]).Nodup) : ∃ s', Check.phi blocks s φ = .ok s' := by
  obtain ⟨s', hs'⟩ := h.exists_setOnce hlt fun hv =>
    (List.nodup_append.1 hnodup).2.2 φ.dst hv φ.dst List.mem_cons_self rfl
  refine ⟨s', ?_⟩
  simp only [Check.phi, Except.bind_eq_ok]
  refine ⟨s', hs', (), forM_eq_ok.2 fun a ha => Except.bind_eq_ok.2 ⟨(), ?_, ?_⟩, rfl⟩
  · rw [(h.setOnce hs').capacity]
    exact var_eq_ok.2 (hφ.reads a.value (List.mem_map_of_mem ha))
  · exact label_eq_ok.2 (hφ.sources a ha)

theorem Tracks.exists_block {b : Block} (h : Tracks n s ds) (hb : BlockOk n blocks b)
    (hlt : ∀ v ∈ b.definitions, v < n) (hnodup : (ds ++ b.definitions).Nodup) :
    ∃ s', Check.block blocks s b = .ok s' := by
  rw [Block.definitions, ← List.append_assoc, ← b.flatMap_dst] at hnodup
  -- first the instructions, each with its position, then the phis
  obtain ⟨t, ht⟩ : ∃ t, b.body.zipIdx.foldlM
      (fun s x => Check.instr b blocks s x.1 x.2) s = .ok t := by
    refine h.exists_foldlM (fun s s' ds x hs hx => hs.instr hx) ?_ (List.nodup_append.1 hnodup).1
    intro s ds x hx hs hn
    have hk : b.body[x.2]? = some x.1 := List.mk_mem_zipIdx_iff_getElem?.1 hx
    refine hs.exists_instr (hb.instrs x.2 x.1 hk) (fun v hv => hlt v ?_) hn
    exact List.mem_append_left _ (List.mem_filterMap.2 ⟨x.1, List.mem_of_getElem? hk, hv⟩)
  have htrack := (h.foldlM (fun s s' ds x hs hx => hs.instr hx) ht).1
  obtain ⟨s', hs'⟩ : ∃ s', b.phis.foldlM (Check.phi blocks) t = .ok s' := by
    rw [List.map_eq_flatMap] at hnodup
    refine htrack.exists_foldlM (fun s s' ds φ hs hφ => hs.phi hφ) ?_ hnodup
    intro s ds φ hφ hs hn
    refine hs.exists_phi (hb.phis φ hφ) (hlt φ.dst ?_) hn
    exact List.mem_append_right _ (List.mem_map_of_mem hφ)
  refine ⟨s', ?_⟩
  simp only [Check.block, ite_throw_bind_eq_ok, Except.bind_eq_ok]
  exact ⟨by simpa [Option.isSome_iff_ne_none] using hb.terminated, t, ht, hs'⟩

end Check

/-! ### Well-formed programs pass -/

/-- What comes from one position only comes without repeats. -/
theorem nodup_filterMap_of_unique {α β : Type} {f : α → Option β} {l : List α}
    (h : ∀ (i j : Nat) (a a' : α) (b : β), l[i]? = some a → f a = some b → l[j]? = some a' →
      f a' = some b → i = j) : (l.filterMap f).Nodup := by
  rw [List.Nodup, List.pairwise_filterMap, List.pairwise_iff_getElem]
  rintro i j hi hj hij b hb _ hb' rfl
  exact Nat.ne_of_lt hij
    (h i j _ _ b (List.getElem?_eq_getElem hi) hb (List.getElem?_eq_getElem hj) hb')

namespace Program

variable {p : Program} {n : Nat}

theorem WellFormed.nodup_block (h : p.WellFormed n) {b : Label} {block : Block}
    (hb : p.blocks[b]? = some block) : block.definitions.Nodup := by
  refine List.nodup_append.2 ⟨nodup_filterMap_of_unique ?_, ?_, ?_⟩
  · intro k k' i i' v hk hv hk' hv'
    rw [← body_of hb] at hk hk'
    cases h.once (.instr b k) (.instr b k') v ⟨i, hk, hv⟩ ⟨i', hk', hv'⟩
    rfl
  · rw [← List.filterMap_eq_map]
    refine nodup_filterMap_of_unique ?_
    intro k k' φ φ' v hk hv hk' hv'
    rw [← phis_of hb] at hk hk'
    cases h.once (.phi b k) (.phi b k') v ⟨φ, hk, Option.some_inj.1 hv⟩
      ⟨φ', hk', Option.some_inj.1 hv'⟩
    rfl
  · rintro v hv _ hv' rfl
    obtain ⟨i, hi, hd⟩ := List.mem_filterMap.1 hv
    obtain ⟨φ, hφ, rfl⟩ := List.mem_map.1 hv'
    obtain ⟨k, hk⟩ := List.mem_iff_getElem?.1 hi
    obtain ⟨k', hk'⟩ := List.mem_iff_getElem?.1 hφ
    rw [← body_of hb] at hk
    rw [← phis_of hb] at hk'
    cases h.once (.instr b k) (.phi b k') φ.dst ⟨i, hk, hd⟩ ⟨φ, hk', rfl⟩

/-- Variables that have one site each are listed once. -/
theorem WellFormed.nodup_definitions (h : p.WellFormed n) : (p.definitions n).Nodup := by
  refine List.nodup_append.2 ⟨List.nodup_range, List.nodup_flatMap.2 ⟨?_, ?_⟩, ?_⟩
  · intro block hblock
    obtain ⟨b, hb⟩ := exists_position hblock
    exact h.nodup_block hb
  · rw [List.pairwise_iff_getElem]
    intro b b' hb hb' hlt v hv hv'
    obtain ⟨d, hd, hsite⟩ := exists_defines_of_mem_block (n := n)
      (Array.getElem?_eq_getElem (by simpa using hb)) (by simpa using hv)
    obtain ⟨d', hd', hsite'⟩ := exists_defines_of_mem_block (n := n)
      (Array.getElem?_eq_getElem (by simpa using hb')) (by simpa using hv')
    rw [h.once d d' v hd hd', hsite'] at hsite
    exact Nat.ne_of_gt hlt (Option.some_inj.1 hsite)
  · rintro v hv _ hv' rfl
    obtain ⟨block, hblock, hv'⟩ := List.mem_flatMap.1 hv'
    obtain ⟨b, hb⟩ := exists_position hblock
    obtain ⟨d, hd, hsite⟩ := exists_defines_of_mem_block (n := n) hb hv'
    rw [h.once d .entry v hd (Nat.le_of_lt_succ (List.mem_range.1 hv))] at hsite
    cases hsite

theorem WellFormed.instrOk (h : p.WellFormed n) {b : Label} {block : Block}
    (hb : p.blocks[b]? = some block) {k : Nat} {i : Instr} (hk : block.body[k]? = some i) :
    Check.InstrOk p.vars.size p.blocks.size block i k := by
  obtain ⟨init, t, hbody, -, hinit⟩ := h.closed b (Array.getElem?_eq_some_iff.1 hb).1
  have last : i.isTerminator = true → k = init.length ∧ i = t := by
    intro hi
    rw [← body_of hb, hbody] at hk
    rcases Nat.lt_or_ge k init.length with hlt | hge
    · rw [List.getElem?_append_left hlt] at hk
      rw [hinit i (List.mem_of_getElem? hk)] at hi
      cases hi
    · rw [List.getElem?_append_right hge, List.getElem?_eq_some_iff] at hk
      obtain ⟨hlt, rfl⟩ := hk
      rw [List.length_singleton] at hlt
      exact ⟨by omega, List.getElem_singleton ..⟩
  refine ⟨?_, ?_, ?_⟩
  · intro hi
    rw [← body_of hb, hbody, (last hi).1]
    simp
  · intro v hv
    exact h.reads_lt (.inl ⟨b, i, by rw [body_of hb]; exact List.mem_of_getElem? hk, hv⟩)
  · intro x hx
    rcases hi : i.isTerminator with - | -
    · rw [Instr.targets_eq_nil hi] at hx
      cases hx
    · refine h.targets_lt b x ?_
      rw [targets, hbody, List.getLast?_concat, ← (last hi).2]
      exact hx

theorem WellFormed.phiOk (h : p.WellFormed n) {b : Label} {φ : Phi} (hφ : φ ∈ p.phis b) :
    Check.PhiOk p.vars.size p.blocks.size φ := by
  constructor
  · intro v hv
    exact h.reads_lt (.inr ⟨b, φ, hφ, hv⟩)
  · intro a ha
    exact (((h.phi_args b φ hφ).2 a.source).1 (List.mem_map_of_mem ha)).lt_size

theorem WellFormed.blockOk (h : p.WellFormed n) {b : Label} {block : Block}
    (hb : p.blocks[b]? = some block) : Check.BlockOk p.vars.size p.blocks.size block := by
  refine ⟨?_, fun k i hk => h.instrOk hb hk, fun φ hφ => h.phiOk (phis_of hb ▸ hφ)⟩
  obtain ⟨init, t, hbody, ht, -⟩ := h.closed b (Array.getElem?_eq_some_iff.1 hb).1
  rw [Block.terminator?, ← body_of hb, hbody, List.getLast?_concat, Option.filter_some, if_pos ht]
  rfl

/-- Entries that are those of the predecessors, each once, are as many and in place. -/
theorem WellFormed.phis_ok (h : p.WellFormed n) {b : Label} {block : Block}
    (hb : p.blocks[b]? = some block) : Check.phis p.flow block = .ok () := by
  rw [Check.phis_eq_ok, h.indexed b block hb, ← phis_of hb]
  refine ⟨?_, fun φ hφ => Check.phiArgs_eq_ok.2 ⟨?_, ?_⟩⟩
  · rintro ⟨rfl, hphis⟩
    rw [h.entry_phis] at hphis
    cases hphis
  · obtain ⟨hnodup, hmem⟩ := h.phi_args b φ hφ
    have hperm : (φ.args.map (·.source)).Perm (p.flow.pred b) := by
      rw [List.perm_ext_iff_of_nodup hnodup
        ((pairwise_pred_flow h.indexed b).imp Nat.ne_of_lt)]
      intro a
      rw [hmem a, mem_pred_flow h.indexed]
    rw [← hperm.length_eq, List.length_map]
  · intro k a hk
    obtain ⟨hnodup, hmem⟩ := h.phi_args b φ hφ
    refine ⟨?_, fun a' ha' heq => ?_⟩
    · rw [mem_pred_flow h.indexed, ← hmem a.source]
      exact List.mem_map_of_mem (List.mem_of_getElem? hk)
    · obtain ⟨hklt, rfl⟩ := List.getElem?_eq_some_iff.1 hk
      rw [← List.take_append_drop k φ.args, List.map_append, List.nodup_append] at hnodup
      refine hnodup.2.2 a'.source (List.mem_map_of_mem ha') _ (List.mem_map_of_mem ?_) heq
      rw [List.drop_eq_getElem_cons hklt]
      exact List.mem_cons_self

/-- **A well-formed program passes the check.** -/
theorem WellFormed.check (h : p.WellFormed n) : p.check n = .ok () := by
  have place : ∀ block ∈ p.blocks.toList, ∃ b, p.blocks[b]? = some block := fun block hblock =>
    exists_position hblock
  obtain ⟨s, hs⟩ : ∃ s, p.blocks.toList.foldlM (Check.block p.blocks.size)
      (IndexSet.ofList p.vars.size (List.range (n + 1))) = .ok s := by
    refine (tracks_params h.params).exists_foldlM (fun s s' ds block hs hb => hs.block hb) ?_
      h.nodup_definitions
    intro s ds block hblock hs hnodup
    obtain ⟨b, hb⟩ := place block hblock
    refine hs.exists_block (h.blockOk hb) (fun v hv => ?_) hnodup
    obtain ⟨d, hd, -⟩ := exists_defines_of_mem_block (n := n) hb hv
    exact h.defines_lt d v hd
  have htrack := ((tracks_params h.params).foldlM (fun s s' ds block hs hb => hs.block hb) hs).1
  simp only [Program.check, ite_throw_bind_eq_ok, Except.bind_eq_ok]
  refine ⟨?_, Nat.not_le_of_lt h.params, (), forM_eq_ok.2 fun x hx => ?_, s, hs, (),
    forM_eq_ok.2 fun block hblock => ?_, forM_eq_ok.2 fun block hblock => ?_⟩
  · simpa [Array.size_pos_iff] using h.entry
  · refine Check.slot_eq_ok.2 (h.slots x.2 x.1 ?_)
    rw [← Array.getElem?_toList]
    exact List.mk_mem_zipIdx_iff_getElem?.1 hx
  · obtain ⟨b, hb⟩ := place block hblock
    refine Check.reads_eq_ok.2 fun v hv => (htrack.contains v).2 ?_
    refine mem_definitions_iff.2 (h.defined v ?_)
    rcases List.mem_append.1 hv with hv | hv
    · obtain ⟨φ, hφ, hv⟩ := List.mem_flatMap.1 hv
      exact .inr ⟨b, φ, (phis_of hb).symm ▸ hφ, hv⟩
    · obtain ⟨i, hi, hv⟩ := List.mem_flatMap.1 hv
      exact .inl ⟨b, i, (body_of hb).symm ▸ hi, hv⟩
  · obtain ⟨b, hb⟩ := place block hblock
    exact h.phis_ok hb

/-- When reads are looked up, every operand is known to be within the table. -/
theorem checkWithin_eq (p : Program) (n : Nat) : p.checkWithin n = p.check n := by
  rw [checkWithin, Program.check]
  refine if_congr Iff.rfl rfl (if_ctx_congr Iff.rfl (fun _ => rfl) fun hn => ?_)
  refine Except.bind_congr fun _ _ => ?_
  have hparams := tracks_params (Nat.lt_of_not_le hn)
  have hblocks : p.blocks.toList.foldlM (Check.blockWithin p.vars.size p.blocks.size)
        (IndexSet.ofList p.vars.size (List.range (n + 1))) =
      p.blocks.toList.foldlM (Check.block p.blocks.size)
        (IndexSet.ofList p.vars.size (List.range (n + 1))) :=
    hparams.foldlM_congr (fun block _ _ hs => hs.blockWithin_eq block)
      fun _ _ _ _ hs hok => ⟨_, (hs.block hok).1⟩
  dsimp only
  rw [hblocks]
  refine Except.bind_congr fun s hs => ?_
  obtain ⟨htrack, hok⟩ := hparams.foldlM (fun s s' ds block hs hb => hs.block hb) hs
  have hreads : p.blocks.toList.forM (Check.readsWithin s) = p.blocks.toList.forM (Check.reads s) :=
    forM_congr fun block hblock => forM_congr fun v hv =>
      if_pos (htrack.capacity.symm ▸ (hok block hblock).reads_lt hv)
  rw [hreads, p.flowWithin_eq]
  rfl

/-- **Exactly the well-formed programs pass the check**, and what they mention is within bounds.
The check has an answer for every program: it looks nothing up beyond the end of its table. -/
theorem check_exact (p : Program) (hp : p.Indexed) (n : Nat) :
    (p.check n = .ok () ↔ p.WellFormed n) ∧
      (p.WellFormed n → (∀ v, p.Reads v → v < p.vars.size) ∧
        (∀ b i t, i ∈ p.body b → t ∈ i.targets → t < p.blocks.size) ∧
        ∀ b φ a, φ ∈ p.phis b → a ∈ φ.args → a.source < p.blocks.size) ∧
      p.checkWithin n = p.check n ∧ Safe (p.check n) := by
  refine ⟨⟨wellFormed_of_check hp, WellFormed.check⟩, fun h => ⟨fun v => h.reads_lt, ?_, ?_⟩,
    p.checkWithin_eq n, p.safe_check n⟩
  · intro b i t hi ht
    obtain ⟨k, hk⟩ := List.mem_iff_getElem?.1 hi
    obtain ⟨block, hb⟩ := exists_block (lt_size_of_body hk)
    exact (h.instrOk hb (body_of hb ▸ hk)).targets t ht
  · intro b φ a hφ
    exact (h.phiOk hφ).sources a

/-- The loop of two phis is well formed with one parameter, but not with two: what would be the
second one is set in the entry block. -/
theorem check_exact_swapLoop :
    swapLoop.Indexed ∧ swapLoop.WellFormed 0 ∧ ¬ swapLoop.WellFormed 1 := by
  refine ⟨indexed_swapLoop, (swapLoop.check_exact indexed_swapLoop 0).1.1 check_swapLoop, ?_⟩
  rw [← (swapLoop.check_exact indexed_swapLoop 1).1]
  decide +kernel

end Program

end ChordalAlloc
