/-
ChordalAlloc/Proofs/WellFormed.lean

What it means for a program to be fit for allocation, said without the order
in which `Program.check` looks for trouble.

A definition of a variable has a site: the entry, for a parameter, or a phi,
or an instruction.  `Program.WellFormed` asks that every variable has at
most one site and that everything read has one, that blocks end in their
only terminator, and that the entries of a phi are those of the predecessors
of its block, each once.

The main result is `Program.wellFormed_of_check`: a program that passes the
check is well formed.  The check works through one list of definitions,
parameters first and then block by block; the list without repeats is what
gives a single site to each variable.
-/
import Mathlib.Data.List.Nodup
import Mathlib.Data.List.Perm.Subperm
import ChordalAlloc.Code.Check
import ChordalAlloc.Proofs.Checks
import ChordalAlloc.Proofs.View

namespace ChordalAlloc

/-! ### Sites -/

/-- A place in a program that defines a variable. -/
inductive DefSite where
  /-- The entry, where parameters are defined. -/
  | entry
  /-- A phi of a block. -/
  | phi (block : Label) (position : Nat)
  /-- An instruction of a block. -/
  | instr (block : Label) (position : Nat)
deriving DecidableEq

/-- The block a site is in. -/
def DefSite.block? : DefSite → Option Label
  | .entry => none
  | .phi b _ => some b
  | .instr b _ => some b

namespace Program

/-- The site defines the variable, in a program with parameters `0 .. n`. -/
def Defines (p : Program) (n : Nat) : DefSite → Var → Prop
  | .entry, v => v ≤ n
  | .phi b k, v => ∃ φ, (p.phis b)[k]? = some φ ∧ φ.dst = v
  | .instr b k, v => ∃ i, (p.body b)[k]? = some i ∧ i.dst? = some v

/-- Some instruction or some phi reads the variable. -/
def Reads (p : Program) (v : Var) : Prop :=
  (∃ b i, i ∈ p.body b ∧ v ∈ i.reads) ∨ ∃ b φ, φ ∈ p.phis b ∧ v ∈ φ.reads

/-- A program fit for allocation, with parameters `0 .. n`. -/
structure WellFormed (p : Program) (n : Nat) : Prop where
  /-- Blocks carry their positions as labels. -/
  indexed : p.Indexed
  /-- There is a block to enter. -/
  entry : 0 < p.blocks.size
  /-- The parameters exist. -/
  params : n < p.vars.size
  /-- Every variable stands in its own slot and has no register. -/
  slots : ∀ (i : Nat) (v : Variable), p.vars[i]? = some v → v.id = i ∧ v.register = none
  /-- Every block ends in its only terminator. -/
  closed : ∀ b, b < p.blocks.size → ∃ init t, p.body b = init ++ [t] ∧
    t.isTerminator = true ∧ ∀ i ∈ init, i.isTerminator = false
  /-- Control stays in the program. -/
  targets_lt : ∀ b t, t ∈ p.targets b → t < p.blocks.size
  /-- What is defined exists. -/
  defines_lt : ∀ d v, p.Defines n d v → v < p.vars.size
  /-- A variable has one definition at most. -/
  once : ∀ d d' v, p.Defines n d v → p.Defines n d' v → d = d'
  /-- What is read has a definition. -/
  defined : ∀ v, p.Reads v → ∃ d, p.Defines n d v
  /-- Nothing comes before the entry. -/
  entry_phis : p.phis 0 = []
  /-- The entries of a phi are those of the predecessors of its block, each once. -/
  phi_args : ∀ b φ, φ ∈ p.phis b → (φ.args.map (·.source)).Nodup ∧
    ∀ a, a ∈ φ.args.map (·.source) ↔ p.Edge a b

theorem defines_phi_iff {p : Program} {n : Nat} {b : Label} {k : Nat} {v : Var} :
    p.Defines n (.phi b k) v ↔ (p.receivers b)[k]? = some v := by
  rw [receivers, List.getElem?_map, Option.map_eq_some_iff]
  rfl

theorem defines_instr_iff {p : Program} {n : Nat} {b : Label} {k : Nat} {v : Var} :
    p.Defines n (.instr b k) v ↔ ((p.body b).map (·.dst?))[k]? = some (some v) := by
  rw [List.getElem?_map, Option.map_eq_some_iff]
  rfl

theorem WellFormed.reads_lt {p : Program} {n : Nat} (h : p.WellFormed n) {v : Var}
    (hv : p.Reads v) : v < p.vars.size := by
  obtain ⟨d, hd⟩ := h.defined v hv
  exact h.defines_lt d v hd

theorem WellFormed.arg_lt {p : Program} {n : Nat} (h : p.WellFormed n) {b : Label} {φ : Phi}
    {a : PhiArg} (hφ : φ ∈ p.phis b) (ha : a ∈ φ.args) : a.value < p.vars.size :=
  h.reads_lt (.inr ⟨b, φ, hφ, List.mem_map.2 ⟨a, ha, rfl⟩⟩)

theorem WellFormed.dst_lt {p : Program} {n : Nat} (h : p.WellFormed n) {b : Label} {φ : Phi}
    (hφ : φ ∈ p.phis b) : φ.dst < p.vars.size := by
  obtain ⟨k, hk⟩ := List.mem_iff_getElem?.1 hφ
  exact h.defines_lt (.phi b k) φ.dst ⟨φ, hk, rfl⟩

end Program

/-! ### The checks one by one -/

namespace Check

theorem slot_eq_ok {v : Variable} {i : Nat} :
    slot v i = .ok () ↔ v.id = i ∧ v.register = none := by
  simp only [slot, ite_throw_bind_eq_ok, ite_throw_eq_ok, ne_eq, not_not, Bool.not_eq_true,
    Option.isSome_eq_false_iff, Option.isNone_iff_eq_none]
  exact ⟨fun ⟨h, h', _⟩ => ⟨h, h'⟩, fun ⟨h, h'⟩ => ⟨h, h', rfl⟩⟩

theorem var_eq_ok {n : Nat} {v : Var} : var n v = .ok () ↔ v < n := by
  simp only [var, ite_error_eq_ok, and_true]

theorem label_eq_ok {n : Nat} {b : Label} : label n b = .ok () ↔ b < n := by
  simp only [label, ite_error_eq_ok, and_true]

theorem setOnce_eq_ok {s s' : IndexSet} {v : Var} :
    setOnce s v = .ok s' ↔ v < s.capacity ∧ s.contains v = false ∧ s' = s.insert v := by
  simp only [setOnce, Except.bind_eq_ok, ite_throw_bind_eq_ok, Bool.not_eq_true]
  constructor
  · rintro ⟨⟨⟩, hlt, hc, h⟩
    cases h
    exact ⟨var_eq_ok.1 hlt, hc, rfl⟩
  · rintro ⟨hlt, hc, rfl⟩
    exact ⟨(), var_eq_ok.2 hlt, hc, rfl⟩

/-- A set of variables holds exactly the definitions of a list without repeats. -/
structure Tracks (n : Nat) (s : IndexSet) (ds : List Var) : Prop where
  capacity : s.capacity = n
  nodup : ds.Nodup
  lt : ∀ v ∈ ds, v < n
  contains : ∀ v, s.contains v = true ↔ v ∈ ds

variable {n blocks : Nat} {s s' : IndexSet} {ds : List Var}

theorem Tracks.setOnce {v : Var} (h : Tracks n s ds) (hv : setOnce s v = .ok s') :
    Tracks n s' (ds ++ [v]) := by
  obtain ⟨hlt, hc, rfl⟩ := setOnce_eq_ok.1 hv
  rw [h.capacity] at hlt
  have hmem : v ∉ ds := by
    intro hm
    rw [(h.contains v).2 hm] at hc
    cases hc
  refine ⟨by simpa using h.capacity, ?_, ?_, ?_⟩
  · refine List.nodup_append.2 ⟨h.nodup, List.nodup_singleton v, ?_⟩
    intro a ha b hb hab
    rw [List.mem_singleton] at hb
    exact hmem (hb ▸ hab ▸ ha)
  · intro u hu
    rcases List.mem_append.1 hu with hu | hu
    · exact h.lt u hu
    · rwa [List.mem_singleton.1 hu]
  · intro u
    simp only [IndexSet.contains_insert, h.capacity, Bool.or_eq_true, h.contains u,
      decide_eq_true_eq, List.mem_append, List.mem_singleton]
    constructor
    · rintro (hu | ⟨rfl, -⟩)
      · exact .inl hu
      · exact .inr rfl
    · rintro (hu | rfl)
      · exact .inl hu
      · exact .inr ⟨rfl, hlt⟩

/-- A fold whose steps add definitions and find out something adds all of them and finds out
everything. -/
theorem Tracks.foldlM {α : Type} {f : IndexSet → α → Except Error IndexSet} {g : α → List Var}
    {P : α → Prop}
    (hstep : ∀ s s' ds x, Tracks n s ds → f s x = .ok s' → Tracks n s' (ds ++ g x) ∧ P x)
    {xs : List α} (h : Tracks n s ds) (hs' : xs.foldlM f s = .ok s') :
    Tracks n s' (ds ++ xs.flatMap g) ∧ ∀ x ∈ xs, P x := by
  induction xs generalizing s ds with
  | nil =>
    cases hs'
    rw [List.flatMap_nil, List.append_nil]
    exact ⟨h, fun x hx => absurd hx List.not_mem_nil⟩
  | cons x xs ih =>
    rw [List.foldlM_cons, Except.bind_eq_ok] at hs'
    obtain ⟨t, ht, hrest⟩ := hs'
    obtain ⟨htrack, hx⟩ := hstep s t ds x h ht
    obtain ⟨hall, hxs⟩ := ih htrack hrest
    rw [List.append_assoc, ← List.flatMap_cons] at hall
    exact ⟨hall, List.forall_mem_cons.2 ⟨hx, hxs⟩⟩

/-- What the check of an instruction finds out. -/
structure InstrOk (n blocks : Nat) (b : Block) (i : Instr) (k : Nat) : Prop where
  last : i.isTerminator = true → k + 1 = b.body.length
  reads : ∀ v ∈ i.reads, v < n
  targets : ∀ t ∈ i.targets, t < blocks

theorem Tracks.instr {b : Block} {i : Instr} {k : Nat} (h : Tracks n s ds)
    (hi : Check.instr b blocks s i k = .ok s') :
    Tracks n s' (ds ++ i.dst?.toList) ∧ InstrOk n blocks b i k := by
  simp only [Check.instr, ite_throw_bind_eq_ok, Except.bind_eq_ok] at hi
  obtain ⟨hlast, ⟨⟩, hreads, t, ht, ⟨⟩, htargets, hs'⟩ := hi
  cases hs'
  have htrack := (h.foldlM (P := fun _ => True)
    (fun s s' ds x hs hx => ⟨hs.setOnce hx, trivial⟩) ht).1
  rw [List.flatMap_singleton'] at htrack
  refine ⟨htrack, ?_, ?_, ?_⟩
  · intro hterm
    simpa [hterm] using hlast
  · intro v hv
    rw [← h.capacity]
    exact var_eq_ok.1 (forM_eq_ok.1 hreads v hv)
  · intro t ht
    exact label_eq_ok.1 (forM_eq_ok.1 htargets t ht)

/-- The operands of a phi exist. -/
structure PhiOk (n blocks : Nat) (φ : Phi) : Prop where
  reads : ∀ v ∈ φ.reads, v < n
  sources : ∀ a ∈ φ.args, a.source < blocks

theorem Tracks.phi {φ : Phi} (h : Tracks n s ds) (hφ : Check.phi blocks s φ = .ok s') :
    Tracks n s' (ds ++ [φ.dst]) ∧ PhiOk n blocks φ := by
  simp only [Check.phi, Except.bind_eq_ok] at hφ
  obtain ⟨t, ht, ⟨⟩, hargs, hs'⟩ := hφ
  cases hs'
  have track := h.setOnce ht
  have each : ∀ a ∈ φ.args, a.value < n ∧ a.source < blocks := by
    intro a ha
    obtain ⟨⟨⟩, hvar, hlabel⟩ := Except.bind_eq_ok.1 (forM_eq_ok.1 hargs a ha)
    rw [track.capacity] at hvar
    exact ⟨var_eq_ok.1 hvar, label_eq_ok.1 hlabel⟩
  refine ⟨track, ?_, fun a ha => (each a ha).2⟩
  intro v hv
  obtain ⟨a, ha, rfl⟩ := List.mem_map.1 hv
  exact (each a ha).1

end Check

/-- The variables a block defines, in the order in which they are checked. -/
def Block.definitions (b : Block) : List Var := b.body.filterMap (·.dst?) ++ b.phis.map (·.dst)

/-- The definitions of a body, taken with their positions. -/
theorem Block.flatMap_dst (b : Block) :
    b.body.zipIdx.flatMap (·.1.dst?.toList) = b.body.filterMap (·.dst?) := by
  rw [List.filterMap_eq_flatMap_toList]
  conv_rhs => rw [← List.zipIdx_map_fst 0 b.body, List.flatMap_map]

namespace Check

/-- What the check of a block taken by itself finds out. -/
structure BlockOk (n blocks : Nat) (b : Block) : Prop where
  terminated : b.terminator?.isSome = true
  instrs : ∀ k i, b.body[k]? = some i → InstrOk n blocks b i k
  phis : ∀ φ ∈ b.phis, PhiOk n blocks φ

variable {n blocks : Nat} {s s' : IndexSet} {ds : List Var}

theorem Tracks.block {b : Block} (h : Tracks n s ds) (hb : Check.block blocks s b = .ok s') :
    Tracks n s' (ds ++ b.definitions) ∧ BlockOk n blocks b := by
  simp only [Check.block, ite_throw_bind_eq_ok, Except.bind_eq_ok] at hb
  obtain ⟨hterm, t, hbody, hphis⟩ := hb
  -- first the instructions, each with its position, then the phis
  obtain ⟨hdefs, hinstrs⟩ := h.foldlM (fun s s' ds x hs hx => hs.instr hx) hbody
  obtain ⟨htrack, hphis⟩ := hdefs.foldlM (fun s s' ds φ hs hφ => hs.phi hφ) hphis
  rw [b.flatMap_dst, ← List.map_eq_flatMap, List.append_assoc] at htrack
  refine ⟨htrack, ?_, fun k i hk => ?_, hphis⟩
  · simpa [Option.isSome_iff_ne_none] using hterm
  · exact hinstrs (i, k) (by simpa [List.mk_mem_zipIdx_iff_getElem?] using hk)

theorem reads_eq_ok {s : IndexSet} {b : Block} :
    Check.reads s b = .ok () ↔ ∀ v ∈ b.reads, s.contains v = true := by
  rw [Check.reads, forM_eq_ok]
  simp only [ite_error_eq_ok, and_true]

theorem phiArg_eq_ok {b : Block} {φ : Phi} {preds : List Label} {a : PhiArg} {k : Nat} :
    Check.phiArg b φ preds a k = .ok () ↔
      a.source ∈ preds ∧ ∀ a' ∈ φ.args.take k, a'.source ≠ a.source := by
  simp only [Check.phiArg, ite_throw_bind_eq_ok, ite_throw_eq_ok]
  simp [pure, Except.pure]

theorem phiArgs_eq_ok {b : Block} {φ : Phi} {preds : List Label} :
    Check.phiArgs b preds φ = .ok () ↔ φ.args.length = preds.length ∧
      ∀ (k : Nat) (a : PhiArg), φ.args[k]? = some a →
        a.source ∈ preds ∧ ∀ a' ∈ φ.args.take k, a'.source ≠ a.source := by
  simp only [Check.phiArgs, ite_throw_bind_eq_ok, ne_eq, not_not, forM_eq_ok, phiArg_eq_ok]
  refine and_congr_right fun _ => ⟨fun h k a hk => ?_, fun h x hx => ?_⟩
  · exact h (a, k) (by simpa [List.mk_mem_zipIdx_iff_getElem?] using hk)
  · exact h x.2 x.1 (List.mk_mem_zipIdx_iff_getElem?.1 hx)

theorem phis_eq_ok {f : Flow} {b : Block} :
    Check.phis f b = .ok () ↔ ¬ (b.label = 0 ∧ (!b.phis.isEmpty) = true) ∧
      ∀ φ ∈ b.phis, Check.phiArgs b (f.pred b.label) φ = .ok () := by
  simp only [Check.phis, ite_throw_bind_eq_ok, forM_eq_ok]

end Check

/-! ### One site for each variable -/

/-- In a list without repeats nothing comes from two positions. -/
theorem position_unique {α β : Type} {f : α → Option β} {l : List α} (h : (l.filterMap f).Nodup)
    {i j : Nat} {a a' : α} {b : β} (hi : l[i]? = some a) (ha : f a = some b)
    (hj : l[j]? = some a') (ha' : f a' = some b) : i = j := by
  induction l generalizing i j with
  | nil => cases hi
  | cons x l ih =>
    -- a later position cannot give what the first one gives
    have apart : ∀ {k : Nat} {c : α}, l[k]? = some c → f c = some b → f x ≠ some b := by
      intro k c hk hc hx
      rw [List.filterMap_cons_some hx, List.nodup_cons] at h
      exact h.1 (List.mem_filterMap.2 ⟨c, List.mem_of_getElem? hk, hc⟩)
    have hl : (l.filterMap f).Nodup := by
      rcases hx : f x with - | y
      · rwa [List.filterMap_cons_none hx] at h
      · rw [List.filterMap_cons_some hx] at h
        exact (List.nodup_cons.1 h).2
    rcases i with - | i <;> rcases j with - | j
    · rfl
    · cases hi
      exact absurd ha (apart hj ha')
    · cases hj
      exact absurd ha' (apart hi ha)
    · rw [ih hl hi hj]

namespace Program

/-- All definitions, in the order in which they are checked. -/
def definitions (p : Program) (n : Nat) : List Var :=
  List.range (n + 1) ++ p.blocks.toList.flatMap (·.definitions)

variable {p : Program} {n : Nat}

/-- What a site of a block defines is among the definitions of the block. -/
theorem Defines.mem_block {d : DefSite} {v : Var} (h : p.Defines n d v) {b : Label}
    (hb : d.block? = some b) : ∃ block, p.blocks[b]? = some block ∧ v ∈ block.definitions := by
  rcases d with - | ⟨b', k⟩ | ⟨b', k⟩
  · cases hb
  · cases hb
    obtain ⟨φ, hφ, rfl⟩ := h
    obtain ⟨block, hblock⟩ := exists_block (lt_size_of_phis (List.mem_of_getElem? hφ))
    rw [phis_of hblock] at hφ
    exact ⟨block, hblock, List.mem_append_right _
      (List.mem_map_of_mem (List.mem_of_getElem? hφ))⟩
  · cases hb
    obtain ⟨i, hi, hd⟩ := h
    obtain ⟨block, hblock⟩ := exists_block (lt_size_of_body hi)
    rw [body_of hblock] at hi
    exact ⟨block, hblock, List.mem_append_left _
      (List.mem_filterMap.2 ⟨i, List.mem_of_getElem? hi, hd⟩)⟩

/-- What a block defines has a site there. -/
theorem exists_defines_of_mem_block {b : Label} {block : Block} (hb : p.blocks[b]? = some block)
    {v : Var} (hv : v ∈ block.definitions) : ∃ d, p.Defines n d v ∧ d.block? = some b := by
  rcases List.mem_append.1 hv with hv | hv
  · obtain ⟨i, hi, hd⟩ := List.mem_filterMap.1 hv
    obtain ⟨k, hk⟩ := List.mem_iff_getElem?.1 hi
    exact ⟨.instr b k, ⟨i, by rwa [body_of hb], hd⟩, rfl⟩
  · obtain ⟨φ, hφ, rfl⟩ := List.mem_map.1 hv
    obtain ⟨k, hk⟩ := List.mem_iff_getElem?.1 hφ
    exact ⟨.phi b k, ⟨φ, by rwa [phis_of hb], rfl⟩, rfl⟩

theorem mem_definitions_iff {v : Var} :
    v ∈ p.definitions n ↔ ∃ d, p.Defines n d v := by
  simp only [definitions, List.mem_append, List.mem_range, List.mem_flatMap]
  constructor
  · rintro (hv | ⟨block, hblock, hv⟩)
    · exact ⟨.entry, Nat.le_of_lt_succ hv⟩
    · obtain ⟨b, hb⟩ := exists_position hblock
      obtain ⟨d, hd, -⟩ := exists_defines_of_mem_block (n := n) hb hv
      exact ⟨d, hd⟩
  · rintro ⟨d, hd⟩
    rcases hb : d.block? with - | b
    · rcases d with - | ⟨b', k⟩ | ⟨b', k⟩
      · exact .inl (Nat.lt_succ_of_le hd)
      · cases hb
      · cases hb
    · obtain ⟨block, hblock, hv⟩ := hd.mem_block hb
      exact .inr ⟨block, mem_blocks hblock, hv⟩

/-- Sites that define one variable are in one block. -/
theorem block_unique (h : (p.definitions n).Nodup) {d d' : DefSite} {v : Var}
    (hd : p.Defines n d v) (hd' : p.Defines n d' v) : d.block? = d'.block? := by
  obtain ⟨-, hblocks, hdisj⟩ := List.nodup_append.1 h
  obtain ⟨-, hpair⟩ := List.nodup_flatMap.1 hblocks
  -- a parameter has no definition in a block
  have param : ∀ {d : DefSite} {b : Label}, p.Defines n d v → d.block? = some b → ¬ v ≤ n := by
    intro d b hd hb hle
    obtain ⟨block, hblock, hv⟩ := hd.mem_block hb
    refine hdisj v (List.mem_range.2 (Nat.lt_succ_of_le hle)) v ?_ rfl
    exact List.mem_flatMap.2
      ⟨block, mem_blocks hblock, hv⟩
  have entry : ∀ {d : DefSite}, p.Defines n d v → d.block? = none → v ≤ n := by
    intro d hd hb
    rcases d with - | ⟨b, k⟩ | ⟨b, k⟩
    · exact hd
    · cases hb
    · cases hb
  -- blocks at different positions define different variables
  have blocks : ∀ {d d' : DefSite} {b b' : Label}, p.Defines n d v → p.Defines n d' v →
      d.block? = some b → d'.block? = some b' → ¬ b < b' := by
    intro d d' b b' hd hd' hb hb' hlt
    obtain ⟨block, hblock, hv⟩ := hd.mem_block hb
    obtain ⟨block', hblock', hv'⟩ := hd'.mem_block hb'
    obtain ⟨hlt₁, rfl⟩ := Array.getElem?_eq_some_iff.1 hblock
    obtain ⟨hlt₂, rfl⟩ := Array.getElem?_eq_some_iff.1 hblock'
    have := List.pairwise_iff_getElem.1 hpair b b' (by simpa using hlt₁) (by simpa using hlt₂) hlt
    exact this (by simpa using hv) (by simpa using hv')
  rcases hb : d.block? with - | b <;> rcases hb' : d'.block? with - | b'
  · rfl
  · exact absurd (entry hd hb) (param hd' hb')
  · exact absurd (entry hd' hb') (param hd hb)
  · have h₁ := blocks hd hd' hb hb'
    have h₂ := blocks hd' hd hb' hb
    rw [Nat.le_antisymm (Nat.le_of_not_lt h₂) (Nat.le_of_not_lt h₁)]

/-- In a list of definitions without repeats every variable has one site. -/
theorem once_of_nodup (h : (p.definitions n).Nodup) (d d' : DefSite) (v : Var)
    (hd : p.Defines n d v) (hd' : p.Defines n d' v) : d = d' := by
  have hb := block_unique h hd hd'
  have inBlock : ∀ {b : Label} {block : Block}, p.blocks[b]? = some block →
      block.definitions.Nodup := by
    intro b block hblock
    have hflat := (List.nodup_append.1 h).2.1
    exact (List.nodup_flatMap.1 hflat).1 block (mem_blocks hblock)
  -- a phi and an instruction of one block define different variables
  have apart : ∀ {b k k'}, p.Defines n (.phi b k) v → ¬ p.Defines n (.instr b k') v := by
    rintro b k k' ⟨φ, hφ, hφv⟩ ⟨i, hi, hiv⟩
    obtain ⟨block, hblock⟩ := exists_block (lt_size_of_body hi)
    rw [phis_of hblock] at hφ
    rw [body_of hblock] at hi
    refine (List.nodup_append.1 (inBlock hblock)).2.2 v ?_ v ?_ rfl
    · exact List.mem_filterMap.2 ⟨i, List.mem_of_getElem? hi, hiv⟩
    · exact List.mem_map.2 ⟨φ, List.mem_of_getElem? hφ, hφv⟩
  rcases d with - | ⟨b, k⟩ | ⟨b, k⟩ <;> rcases d' with - | ⟨b', k'⟩ | ⟨b', k'⟩ <;> cases hb
  · rfl
  · obtain ⟨φ, hφ, hφv⟩ := hd
    obtain ⟨φ', hφ', hφv'⟩ := hd'
    obtain ⟨block, hblock⟩ := exists_block (lt_size_of_phis (List.mem_of_getElem? hφ))
    rw [phis_of hblock] at hφ hφ'
    have hmap := (List.nodup_append.1 (inBlock hblock)).2.1
    rw [← List.filterMap_eq_map] at hmap
    rw [position_unique hmap hφ (congrArg some hφv) hφ' (congrArg some hφv')]
  · exact absurd hd' (apart hd)
  · exact absurd hd (apart hd')
  · obtain ⟨i, hi, hiv⟩ := hd
    obtain ⟨i', hi', hiv'⟩ := hd'
    obtain ⟨block, hblock⟩ := exists_block (lt_size_of_body hi)
    rw [body_of hblock] at hi hi'
    rw [position_unique (List.nodup_append.1 (inBlock hblock)).1 hi hiv hi' hiv']

/-! ### The whole check -/

/-- The check starts with the parameters defined. -/
theorem tracks_params (hn : n < p.vars.size) :
    Check.Tracks p.vars.size (IndexSet.ofList p.vars.size (List.range (n + 1)))
      (List.range (n + 1)) := by
  refine ⟨by simp, List.nodup_range, ?_, ?_⟩
  · intro v hv
    exact Nat.lt_of_le_of_lt (Nat.le_of_lt_succ (List.mem_range.1 hv)) hn
  · intro v
    simp only [IndexSet.contains_ofList, Bool.and_eq_true, decide_eq_true_eq, List.mem_range]
    exact ⟨fun h => h.1, fun h => ⟨h, Nat.lt_of_le_of_lt (Nat.le_of_lt_succ h) hn⟩⟩

/-- What the check of a program finds out, block by block. -/
theorem check_eq_ok (h : p.check n = .ok ()) :
    0 < p.blocks.size ∧ n < p.vars.size ∧
      (∀ (i : Nat) (v : Variable), p.vars[i]? = some v → v.id = i ∧ v.register = none) ∧
      (p.definitions n).Nodup ∧ (∀ v ∈ p.definitions n, v < p.vars.size) ∧
      (∀ block ∈ p.blocks.toList, Check.BlockOk p.vars.size p.blocks.size block ∧
        (∀ v ∈ block.reads, v ∈ p.definitions n) ∧ Check.phis p.flow block = .ok ()) := by
  simp only [check, ite_throw_bind_eq_ok, Except.bind_eq_ok] at h
  obtain ⟨hentry, hparams, ⟨⟩, hslots, s, hblocks, ⟨⟩, hreads, hphis⟩ := h
  rw [forM_eq_ok] at hslots hreads hphis
  have hn : n < p.vars.size := Nat.lt_of_not_le hparams
  obtain ⟨htrack, hok⟩ :=
    (tracks_params hn).foldlM (fun s s' ds block hs hb => hs.block hb) hblocks
  refine ⟨?_, hn, ?_, htrack.nodup, htrack.lt, ?_⟩
  · simpa [Array.size_pos_iff] using hentry
  · intro i v hv
    exact Check.slot_eq_ok.1 (hslots (v, i) (by simpa [List.mk_mem_zipIdx_iff_getElem?] using hv))
  · intro block hblock
    refine ⟨hok block hblock, ?_, hphis block hblock⟩
    intro v hv
    exact (htrack.contains v).1 (Check.reads_eq_ok.1 (hreads block hblock) v hv)

/-- The sources of a phi that fits its predecessors are exactly these, each once. -/
theorem phi_sources {b : Block} {preds : List Label} {φ : Phi}
    (h : Check.phiArgs b preds φ = .ok ()) :
    (φ.args.map (·.source)).Nodup ∧ ∀ a, a ∈ φ.args.map (·.source) ↔ a ∈ preds := by
  obtain ⟨hlen, hargs⟩ := Check.phiArgs_eq_ok.1 h
  have hnodup : (φ.args.map (·.source)).Nodup := by
    rw [List.Nodup, List.pairwise_map, List.pairwise_iff_getElem]
    intro i j hi hj hij
    refine (hargs j _ (List.getElem?_eq_getElem hj)).2 _ ?_
    exact List.mem_iff_getElem.2 ⟨i, by simp only [List.length_take]; omega, by simp⟩
  have hsub : φ.args.map (·.source) ⊆ preds := by
    intro a ha
    obtain ⟨x, hx, rfl⟩ := List.mem_map.1 ha
    obtain ⟨k, hk⟩ := List.mem_iff_getElem?.1 hx
    exact (hargs k x hk).1
  -- as many sources as predecessors, so none is missing
  have hperm : (φ.args.map (·.source)).Perm preds :=
    (List.subperm_of_subset hnodup hsub).perm_of_length_le (by simp [hlen])
  exact ⟨hnodup, fun a => hperm.mem_iff⟩

/-- A block that passes its check ends in its only terminator. -/
theorem closed_of_blockOk {N B : Nat} {block : Block} (h : Check.BlockOk N B block) :
    ∃ init t, block.body = init ++ [t] ∧ t.isTerminator = true ∧
      ∀ i ∈ init, i.isTerminator = false := by
  have hterm := h.terminated
  rw [Block.terminator?, Option.isSome_filter] at hterm
  obtain ⟨t, ht, hlast⟩ : ∃ t, block.body.getLast? = some t ∧ t.isTerminator = true := by
    rcases hl : block.body.getLast? with - | t
    · simp [hl] at hterm
    · exact ⟨t, rfl, by simpa [hl] using hterm⟩
  obtain ⟨init, hinit⟩ := List.getLast?_eq_some_iff.1 ht
  refine ⟨init, t, hinit, hlast, ?_⟩
  intro i hi
  obtain ⟨k, hk⟩ := List.mem_iff_getElem?.1 hi
  have hlt : k < init.length := (List.getElem?_eq_some_iff.1 hk).1
  by_contra hne
  have := (h.instrs k i (by rw [hinit, List.getElem?_append_left hlt]; exact hk)).last
    (by simpa using hne)
  rw [hinit, List.length_append, List.length_singleton] at this
  omega

/-- **A program that passes the check is well formed.** -/
theorem wellFormed_of_check (hp : p.Indexed) (h : p.check n = .ok ()) : p.WellFormed n := by
  obtain ⟨hentry, hparams, hslots, hnodup, hlt, hblocks⟩ := check_eq_ok h
  refine ⟨hp, hentry, hparams, hslots, ?_, ?_, ?_, once_of_nodup hnodup, ?_, ?_, ?_⟩
  · intro b hb
    obtain ⟨block, hblock⟩ := exists_block hb
    rw [body_of hblock]
    exact closed_of_blockOk (hblocks block (mem_blocks hblock)).1
  · intro b t ht
    rcases hl : (p.body b).getLast? with - | i
    · rw [targets, hl] at ht
      cases ht
    · rw [targets, hl] at ht
      obtain ⟨init, hinit⟩ := List.getLast?_eq_some_iff.1 hl
      have hk : (p.body b)[init.length]? = some i := by simp [hinit]
      obtain ⟨block, hblock⟩ := exists_block (lt_size_of_body hk)
      rw [body_of hblock] at hk
      exact ((hblocks block (mem_blocks hblock)).1.instrs _ i hk).targets t ht
  · intro d v hd
    exact hlt v (mem_definitions_iff.2 ⟨d, hd⟩)
  · intro v hv
    rw [← mem_definitions_iff]
    rcases hv with ⟨b, i, hi, hv⟩ | ⟨b, φ, hφ, hv⟩
    · obtain ⟨k, hk⟩ := List.mem_iff_getElem?.1 hi
      obtain ⟨block, hblock⟩ := exists_block (lt_size_of_body hk)
      rw [body_of hblock] at hi
      exact (hblocks block (mem_blocks hblock)).2.1 v
        (List.mem_append_right _ (List.mem_flatMap.2 ⟨i, hi, hv⟩))
    · obtain ⟨block, hblock⟩ := exists_block (lt_size_of_phis hφ)
      rw [phis_of hblock] at hφ
      exact (hblocks block (mem_blocks hblock)).2.1 v
        (List.mem_append_left _ (List.mem_flatMap.2 ⟨φ, hφ, hv⟩))
  · obtain ⟨block, hblock⟩ := exists_block hentry
    obtain ⟨hzero, -⟩ := Check.phis_eq_ok.1 (hblocks block (mem_blocks hblock)).2.2
    rw [phis_of hblock]
    simpa [hp 0 block hblock] using hzero
  · intro b φ hφ
    have hb := lt_size_of_phis hφ
    obtain ⟨block, hblock⟩ := exists_block hb
    obtain ⟨-, hargs⟩ := Check.phis_eq_ok.1 (hblocks block (mem_blocks hblock)).2.2
    rw [phis_of hblock] at hφ
    obtain ⟨hnd, hmem⟩ := phi_sources (hargs φ hφ)
    refine ⟨hnd, fun a => ?_⟩
    rw [hmem a, hp b block hblock]
    exact mem_pred_flow hp

end Program

end ChordalAlloc
