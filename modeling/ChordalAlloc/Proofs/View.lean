/-
ChordalAlloc/Proofs/View.lean

A program seen by position.  A block that does not exist has no phis and no
instructions, so that statements about programs need not ask first whether a
block exists; two programs with the same variables and as many blocks, which
agree on labels, phis and instructions everywhere, are the same program
(`Program.ext_view`).

Every edit of a program has one lemma per part of the view that says what it
does to that part.
-/
import Mathlib.Data.List.Basic
import ChordalAlloc.Code.Edit
import ChordalAlloc.Flow

namespace ChordalAlloc

namespace Program

/-! ### The parts of a program -/

/-- The instructions of the block at a position. -/
def body (p : Program) (b : Label) : List Instr := (p.blocks[b]?.map (·.body)).getD []

/-- The phis of the block at a position. -/
def phis (p : Program) (b : Label) : List Phi := (p.blocks[b]?.map (·.phis)).getD []

/-- The variables that the phis of a block set. -/
def receivers (p : Program) (b : Label) : List Var := (p.phis b).map (·.dst)

/-- The label of the block at a position. -/
def label? (p : Program) (b : Label) : Option Label := p.blocks[b]?.map (·.label)

/-- Where control may go from the end of a block. -/
def targets (p : Program) (b : Label) : List Label :=
  ((p.body b).getLast?.map (·.targets)).getD []

/-- Control may go from one block straight to another. -/
def Edge (p : Program) (a b : Label) : Prop := b ∈ p.targets a ∧ b < p.blocks.size

/-- Every block carries its position as its label. -/
def Indexed (p : Program) : Prop :=
  ∀ (b : Label) (block : Block), p.blocks[b]? = some block → block.label = b

variable {p q : Program} {b : Label} {block : Block}

theorem mem_blocks (h : p.blocks[b]? = some block) : block ∈ p.blocks.toList :=
  Array.mem_toList_iff.2 (Array.mem_of_getElem? h)

theorem exists_position (h : block ∈ p.blocks.toList) : ∃ b : Label, p.blocks[b]? = some block :=
  Array.mem_iff_getElem?.1 (Array.mem_toList_iff.1 h)

theorem body_of (h : p.blocks[b]? = some block) : p.body b = block.body := by
  simp [body, h]

theorem phis_of (h : p.blocks[b]? = some block) : p.phis b = block.phis := by
  simp [phis, h]

theorem body_of_le (h : p.blocks.size ≤ b) : p.body b = [] := by
  simp [body, h]

theorem phis_of_le (h : p.blocks.size ≤ b) : p.phis b = [] := by
  simp [phis, h]

theorem lt_size_of_body {i : Instr} {k : Nat} (h : (p.body b)[k]? = some i) :
    b < p.blocks.size := by
  by_contra hb
  rw [body_of_le (Nat.le_of_not_lt hb)] at h
  cases h

theorem lt_size_of_getLast? {i : Instr} (h : (p.body b).getLast? = some i) :
    b < p.blocks.size := by
  rw [List.getLast?_eq_getElem?] at h
  exact lt_size_of_body h

theorem lt_size_of_phis {φ : Phi} (h : φ ∈ p.phis b) : b < p.blocks.size := by
  by_contra hb
  rw [phis_of_le (Nat.le_of_not_lt hb)] at h
  cases h

theorem mem_receivers {v : Var} : v ∈ p.receivers b ↔ ∃ φ ∈ p.phis b, φ.dst = v := List.mem_map

theorem exists_block (h : b < p.blocks.size) : ∃ block, p.blocks[b]? = some block :=
  ⟨p.blocks[b], Array.getElem?_eq_getElem h⟩

theorem phiArg?_eq (p : Program) (b k j : Nat) :
    p.phiArg? b k j = ((p.phis b)[k]?).bind (·.args[j]?) := by
  rcases h : p.blocks[b]? with - | block <;> simp [phiArg?, phis, h]

/-- Programs that agree on every part are the same. -/
theorem ext_view (hv : p.vars = q.vars) (hn : p.blocks.size = q.blocks.size)
    (hl : ∀ b, p.label? b = q.label? b) (hp : ∀ b, p.phis b = q.phis b)
    (hb : ∀ b, p.body b = q.body b) : p = q := by
  obtain ⟨vars, blocks⟩ := p
  obtain ⟨vars', blocks'⟩ := q
  obtain rfl : vars = vars' := hv
  have : blocks = blocks' := by
    refine Array.ext hn fun b h h' => ?_
    have e := hl b
    have e' := hp b
    have e'' := hb b
    simp only [label?, phis, body, Array.getElem?_eq_getElem h, Array.getElem?_eq_getElem h',
      Option.map_some, Option.getD_some, Option.some.injEq] at e e' e''
    rcases hx : blocks[b] with ⟨l, ps, is⟩
    rcases hy : blocks'[b] with ⟨l', ps', is'⟩
    rw [hx, hy] at e e' e''
    simp only at e e' e''
    rw [e, e', e'']
  rw [this]

/-! ### Edges -/

theorem targets_of (h : p.blocks[b]? = some block) : p.targets b = block.targets := by
  rw [targets, body_of h, Block.targets, Block.terminator?]
  rcases hl : block.body.getLast? with - | i
  · rfl
  · rcases ht : i.isTerminator with - | -
    · simp [Option.filter, ht, Instr.targets_eq_nil ht]
    · simp [Option.filter, ht]

theorem Edge.lt_size {a : Label} (h : p.Edge a b) : a < p.blocks.size := by
  by_contra ha
  have hm := h.1
  rw [targets, body_of_le (Nat.le_of_not_lt ha)] at hm
  cases hm

theorem mem_succ_flow {a : Label} : b ∈ p.flow.succ a ↔ p.Edge a b := by
  rcases h : p.blocks[a]? with - | block
  · have ha : p.blocks.size ≤ a := by simpa using h
    constructor
    · intro hb
      simp [flow, Flow.succ, Digraph.next, h] at hb
    · intro hb
      exact absurd hb.lt_size (Nat.not_lt.2 ha)
  · rw [Edge, targets_of h, ← Block.mem_succs]
    simp [flow, Flow.succ, Digraph.next, h]

@[simp] theorem size_flow : p.flow.size = p.blocks.size := by
  simp [flow, Flow.size]

theorem pred_flow (hb : b < p.blocks.size) : p.flow.pred b =
    (p.blocks.toList.filter fun c => (c.succs p.blocks.size).contains b).map (·.label) := by
  simp [flow, Flow.pred, Digraph.next, hb]

theorem pred_flow_of_le (hb : p.blocks.size ≤ b) : p.flow.pred b = [] := by
  simp [flow, Flow.pred, Digraph.next, hb]

theorem mem_pred_flow (hp : p.Indexed) {a : Label} : a ∈ p.flow.pred b ↔ p.Edge a b := by
  by_cases hb : b < p.blocks.size
  swap
  · rw [pred_flow_of_le (Nat.le_of_not_lt hb)]
    exact ⟨fun h => absurd h List.not_mem_nil, fun h => absurd h.2 hb⟩
  rw [pred_flow hb]
  simp only [List.mem_map, List.mem_filter, List.contains_iff_mem, Block.mem_succs]
  constructor
  · rintro ⟨c, ⟨hc, hs⟩, rfl⟩
    obtain ⟨i, hi⟩ := exists_position hc
    rw [hp i c hi, Edge, targets_of hi]
    exact hs
  · intro h
    obtain ⟨c, hc⟩ := exists_block h.lt_size
    refine ⟨c, ⟨mem_blocks hc, ?_⟩, hp a c hc⟩
    rw [Edge, targets_of hc] at h
    exact h

/-- Predecessors are listed in ascending order. -/
theorem pairwise_pred_flow (hp : p.Indexed) (b : Label) : (p.flow.pred b).Pairwise (· < ·) := by
  by_cases hb : b < p.blocks.size
  swap
  · rw [pred_flow_of_le (Nat.le_of_not_lt hb)]
    exact List.Pairwise.nil
  have labels : (p.blocks.toList.map (·.label)).Pairwise (· < ·) := by
    rw [List.pairwise_map, List.pairwise_iff_getElem]
    intro a a' ha ha' hlt
    rw [Array.length_toList] at ha ha'
    rwa [Array.getElem_toList, Array.getElem_toList, hp a _ (Array.getElem?_eq_getElem ha),
      hp a' _ (Array.getElem?_eq_getElem ha')]
  rw [pred_flow hb]
  exact labels.sublist (List.filter_sublist.map _)

/-! ### Edits -/

section Edits

variable (p)

@[simp] theorem size_modifyBlock (c : Label) (f : Block → Block) :
    (p.modifyBlock c f).blocks.size = p.blocks.size := by
  simp [modifyBlock]

variable {p} {c : Label} {f : Block → Block}

theorem label?_modifyBlock (hf : ∀ x, (f x).label = x.label) (b : Label) :
    (p.modifyBlock c f).label? b = p.label? b := by
  rcases h : p.blocks[b]? with - | block <;> by_cases hc : c = b <;>
    simp [label?, modifyBlock, Array.getElem?_modify, h, hc, hf]

theorem body_modifyBlock (hc : c < p.blocks.size) {g : List Instr → List Instr}
    (hf : ∀ x, (f x).body = g x.body) (b : Label) :
    (p.modifyBlock c f).body b = if b = c then g (p.body b) else p.body b := by
  by_cases hb : b = c
  · obtain ⟨block, h⟩ := exists_block hc
    subst hb
    simp [body, modifyBlock, Array.getElem?_modify, h, hf]
  · simp [body, modifyBlock, Array.getElem?_modify, Ne.symm hb, hb]

theorem body_modifyBlock_eq (hf : ∀ x, (f x).body = x.body) (b : Label) :
    (p.modifyBlock c f).body b = p.body b := by
  rcases h : p.blocks[b]? with - | block <;> by_cases hc : c = b <;>
    simp [body, modifyBlock, Array.getElem?_modify, h, hc, hf]

theorem phis_modifyBlock {g : List Phi → List Phi} (hf : ∀ x, (f x).phis = g x.phis)
    (hg : c < p.blocks.size ∨ g [] = []) (b : Label) :
    (p.modifyBlock c f).phis b = if b = c then g (p.phis b) else p.phis b := by
  by_cases hb : b = c
  · subst hb
    rcases hg with hlt | hnil
    · obtain ⟨block, h⟩ := exists_block hlt
      simp [phis, modifyBlock, Array.getElem?_modify, h, hf]
    · rcases h : p.blocks[b]? with - | block <;>
        simp [phis, modifyBlock, Array.getElem?_modify, h, hf, hnil]
  · simp [phis, modifyBlock, Array.getElem?_modify, Ne.symm hb, hb]

theorem phis_modifyBlock_eq (hf : ∀ x, (f x).phis = x.phis) (b : Label) :
    (p.modifyBlock c f).phis b = p.phis b := by
  rcases h : p.blocks[b]? with - | block <;> by_cases hc : c = b <;>
    simp [phis, modifyBlock, Array.getElem?_modify, h, hc, hf]

/-! A fresh block is the last one and has no phis. -/

variable (p)

@[simp] theorem size_freshBlock (is : List Instr) :
    (p.freshBlock is).2.blocks.size = p.blocks.size + 1 := Array.size_push _

theorem blocks_freshBlock (is : List Instr) (b : Label) :
    (p.freshBlock is).2.blocks[b]? =
      if b = p.blocks.size then some { label := b, body := is } else p.blocks[b]? := by
  rw [freshBlock, Array.getElem?_push]
  split
  · next h => rw [h]
  · rfl

theorem label?_freshBlock (is : List Instr) (b : Label) :
    (p.freshBlock is).2.label? b = if b = p.blocks.size then some b else p.label? b := by
  rw [label?, blocks_freshBlock]
  split <;> rfl

theorem body_freshBlock (is : List Instr) (b : Label) :
    (p.freshBlock is).2.body b = if b = p.blocks.size then is else p.body b := by
  rw [body, blocks_freshBlock]
  split <;> rfl

theorem phis_freshBlock (is : List Instr) (b : Label) :
    (p.freshBlock is).2.phis b = p.phis b := by
  rw [phis, blocks_freshBlock]
  split
  · next h => rw [phis_of_le (Nat.le_of_eq h.symm)]; rfl
  · rfl

variable {p}

theorem indexed_iff_label? : p.Indexed ↔ ∀ b l, p.label? b = some l → l = b := by
  constructor
  · intro h b l hl
    obtain ⟨block, hb, rfl⟩ := Option.map_eq_some_iff.1 hl
    exact h b block hb
  · intro h b block hb
    exact h b block.label (by rw [label?, hb]; rfl)

theorem Indexed.of_label? (h : p.Indexed) (hl : ∀ b, q.label? b = p.label? b) : q.Indexed := by
  rw [indexed_iff_label?] at h ⊢
  intro b l hb
  exact h b l ((hl b).symm.trans hb)

/-- The program with another operand in an entry of a phi. -/
def setArg (p : Program) (b : Label) (k j : Nat) (a : PhiArg) : Program :=
  p.modifyBlock b fun x =>
    { x with phis := x.phis.modify k fun φ => { φ with args := φ.args.set j a } }

theorem body_setArg (k j : Nat) (a : PhiArg) (c : Label) :
    (p.setArg b k j a).body c = p.body c := by
  apply body_modifyBlock_eq
  intro x
  rfl

theorem label?_setArg (k j : Nat) (a : PhiArg) (c : Label) :
    (p.setArg b k j a).label? c = p.label? c := by
  apply label?_modifyBlock
  intro x
  rfl

theorem phis_setArg (k j : Nat) (a : PhiArg) (c : Label) : (p.setArg b k j a).phis c =
    if c = b then (p.phis c).modify k fun φ => { φ with args := φ.args.set j a }
    else p.phis c :=
  phis_modifyBlock (g := fun φs => φs.modify k fun φ => { φ with args := φ.args.set j a })
    (fun _ => rfl) (.inr (List.modify_nil _ _)) c

/-- Setting an operand changes this operand and no other. -/
theorem phiArg?_of_set {k j : Nat} {a a' : PhiArg} (h : p.phiArg? b k j = some a)
    (hb : q.phis b = (p.phis b).modify k fun φ => { φ with args := φ.args.set j a' })
    (hother : ∀ c, c ≠ b → q.phis c = p.phis c) (c : Label) (l m : Nat) :
    q.phiArg? c l m = if c = b ∧ l = k ∧ m = j then some a' else p.phiArg? c l m := by
  rw [phiArg?_eq] at h
  obtain ⟨φ, hφ, ha⟩ := Option.bind_eq_some_iff.1 h
  rw [phiArg?_eq, phiArg?_eq]
  by_cases hcb : c = b
  swap
  · rw [hother c hcb, if_neg fun h => hcb h.1]
  subst hcb
  rw [hb, List.getElem?_modify, Option.map_eq_map]
  by_cases hlk : k = l
  swap
  · rw [if_neg fun h => hlk h.2.1.symm]
    simp only [hlk, if_false, Option.map_id_fun', id_eq]
  subst hlk
  simp only [if_true, hφ, Option.map_some, Option.bind_some, List.getElem?_set, true_and]
  by_cases hmj : j = m
  · subst hmj
    rw [if_pos rfl, if_pos rfl, if_pos (List.getElem?_eq_some_iff.1 ha).1]
  · rw [if_neg hmj, if_neg (Ne.symm hmj)]

/-- Changing an operand that exists is setting it. -/
theorem onPhiArg?_eq {k j : Nat} {a : PhiArg} (h : p.phiArg? b k j = some a)
    (f : PhiArg → PhiArg) : p.onPhiArg? b k j f = some (f a, p.setArg b k j (f a)) := by
  rw [phiArg?, Option.bind_eq_bind, Option.bind_eq_some_iff] at h
  obtain ⟨block, hb, h⟩ := h
  rw [Option.bind_eq_bind, Option.bind_eq_some_iff] at h
  obtain ⟨φ, hφ, ha⟩ := h
  have hset : block.phis.set k { φ with args := φ.args.set j (f a) }
      = block.phis.modify k fun φ => { φ with args := φ.args.set j (f a) } := by
    apply List.ext_getElem?
    intro l
    rw [List.getElem?_set, List.getElem?_modify]
    split
    · next hkl =>
      subst hkl
      rw [if_pos (List.getElem?_eq_some_iff.1 hφ).1, hφ]
      rfl
    · simp
  have hblocks : p.blocks.setIfInBounds b
      { block with phis := block.phis.set k { φ with args := φ.args.set j (f a) } }
      = p.blocks.modify b fun x =>
        { x with phis := x.phis.modify k fun φ => { φ with args := φ.args.set j (f a) } } := by
    apply Array.ext_getElem?
    intro c
    rw [Array.getElem?_setIfInBounds, Array.getElem?_modify]
    split
    · next hbc =>
      subst hbc
      rw [if_pos (Array.getElem?_eq_some_iff.1 hb).1, hb, hset]
      rfl
    · rfl
  simp only [onPhiArg?, onBlock?, Block.onPhi?, Phi.onArg?, hb, hφ, ha, Option.map_some,
    Option.pure_def, Option.bind_eq_bind, Option.bind_some, hblocks, setArg, modifyBlock]

end Edits

end Program

/-- Putting an instruction before the terminator. -/
theorem Block.body_insertAtEnd {b : Block} {init : List Instr} {t : Instr}
    (hb : b.body = init ++ [t]) (ht : t.isTerminator = true) (i : Instr) :
    b.insertionPoint = init.length ∧ (b.insertAtEnd i).body = init ++ [i, t] := by
  have hterm : b.terminator?.isSome = true := by
    rw [terminator?, hb, List.getLast?_concat, Option.filter_some_pos ht]
    rfl
  have hpoint : b.insertionPoint = init.length := by
    rw [insertionPoint, if_pos hterm, hb, List.length_append, List.length_singleton,
      Nat.add_sub_cancel]
  refine ⟨hpoint, ?_⟩
  show b.body.insertIdx b.insertionPoint i = init ++ [i, t]
  rw [hpoint, hb]
  clear hb hpoint hterm
  induction init with
  | nil => rfl
  | cons x init ih => exact congrArg (x :: ·) ih

end ChordalAlloc
