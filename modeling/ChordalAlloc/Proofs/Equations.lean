/-
ChordalAlloc/Proofs/Equations.lean

The worklist solves the flow equations.

Facts do not influence each other, so the equations are read fact by fact:
`outFact` and `inFact` say when a fact holds at the end and at the top of a
block, given the blocks at whose top it holds.  A fact has moved at a block
when it differs from what it was at the start.  Two properties carry the
proof, and both are kept by every visit of every block in any order:

* what has moved at a block would move there again (`onward`), so facts
  only ever move away from the start, and moves can be counted;
* what has moved at a block has moved there in every solution (`below`), so
  what is found in the end is the solution closest to the start.

Besides, a block that does not wait in the queue is settled: its equations
hold.  The number of moves that are left bounds the number of visits
(`potential`), hence the search that goes on while a block waits comes to an
end, `visitBound` visits are enough for it, and all equations hold then
(`solve_settled`).
-/
import Mathlib.Data.Finset.Card
import Mathlib.Data.Finset.Prod
import Mathlib.Data.List.Nodup
import Mathlib.Data.List.Perm.Subperm
import Mathlib.Tactic.Ring
import ChordalAlloc.Flow.Equations
import ChordalAlloc.Proofs.Checks

namespace ChordalAlloc

/-- Every block knows its predecessors, and successors exist. -/
structure Flow.Consistent (f : Flow) : Prop where
  mem_pred : ∀ a b, b ∈ f.succ a → a ∈ f.pred b
  succ_lt : ∀ a b, b ∈ f.succ a → b < f.size

namespace Equations

/-! ### The queue -/

section Queue

variable {n : Nat} {queue bs : List Label} {b c : Label}

theorem mem_lineUp : c ∈ lineUp n queue b ↔ c ∈ queue ∨ c = b ∧ b < n := by
  unfold lineUp
  split
  · next h =>
    simp only [Bool.and_eq_true, decide_eq_true_eq] at h
    rw [List.mem_append, List.mem_singleton]
    exact or_congr_right ⟨fun e => ⟨e, h.1⟩, fun e => e.1⟩
  · next h =>
    simp only [Bool.and_eq_true, decide_eq_true_eq, Bool.not_eq_true', not_and,
      Bool.not_eq_false, List.contains_iff_mem] at h
    constructor
    · exact .inl
    · rintro (hc | ⟨rfl, hlt⟩)
      · exact hc
      · exact h hlt

theorem nodup_lineUp (h : queue.Nodup) : (lineUp n queue b).Nodup := by
  unfold lineUp
  split
  · next hb =>
    simp only [Bool.and_eq_true, Bool.not_eq_true', List.contains_eq_mem,
      decide_eq_false_iff_not] at hb
    refine List.nodup_append.2 ⟨h, List.nodup_singleton b, ?_⟩
    intro a ha c hc hac
    rw [List.mem_singleton] at hc
    exact hb.2 (hc ▸ hac ▸ ha)
  · exact h

theorem mem_foldl_lineUp :
    c ∈ bs.foldl (lineUp n) queue ↔ c ∈ queue ∨ c ∈ bs ∧ c < n := by
  induction bs generalizing queue with
  | nil => simp
  | cons b bs ih =>
    rw [List.foldl_cons, ih, mem_lineUp, List.mem_cons]
    constructor
    · rintro ((h | ⟨rfl, h⟩) | ⟨h, h'⟩)
      · exact .inl h
      · exact .inr ⟨.inl rfl, h⟩
      · exact .inr ⟨.inr h, h'⟩
    · rintro (h | ⟨rfl | h, h'⟩)
      · exact .inl (.inl h)
      · exact .inl (.inr ⟨rfl, h'⟩)
      · exact .inr ⟨h, h'⟩

theorem nodup_foldl_lineUp (h : queue.Nodup) : (bs.foldl (lineUp n) queue).Nodup := by
  induction bs generalizing queue with
  | nil => exact h
  | cons b bs ih => exact ih (nodup_lineUp h)

theorem length_le_of_queue (h : queue.Nodup) (hlt : ∀ b ∈ queue, b < n) : queue.length ≤ n := by
  have sub : queue ⊆ List.range n := fun b hb => List.mem_range.2 (hlt b hb)
  simpa using (List.subperm_of_subset h sub).length_le

end Queue

/-! ### The equations fact by fact -/

variable (e : Equations) (f : Flow)

/-- The fact is in the set known at the top of a block. -/
def Known (ins : Array IndexSet) (x : Nat) (b : Label) : Prop :=
  (ins.getD b e.initial).contains x = true

/-- The fact holds at the end of a block, given the blocks at whose top it holds. -/
def outFact (P : Label → Prop) (x : Nat) (b : Label) : Prop :=
  (f.succ b = [] ∧ e.boundary.contains x = true) ∨
    ∃ s ∈ f.succ b, P s ∨ (b, x) ∈ e.arrivals.getD s []

/-- The fact holds at the top of a block, given the blocks at whose top it holds. -/
def inFact (P : Label → Prop) (x : Nat) (b : Label) : Prop :=
  (e.gen.getD b (IndexSet.empty e.capacity)).contains x = true ∨
    e.outFact f P x b ∧ (e.kill.getD b (IndexSet.empty e.capacity)).contains x = false

/-- The fact is not what it was at the start. -/
def Moved (x : Nat) (P : Prop) : Prop := P ↔ e.initial.contains x = false

variable {e f}

theorem outFact_mono {P Q : Label → Prop} {x : Nat} {b : Label}
    (h : ∀ s ∈ f.succ b, P s → Q s) (hP : e.outFact f P x b) : e.outFact f Q x b := by
  rcases hP with hout | ⟨s, hs, hP⟩
  · exact .inl hout
  · exact .inr ⟨s, hs, hP.imp_left (h s hs)⟩

theorem inFact_mono {P Q : Label → Prop} {x : Nat} {b : Label}
    (h : ∀ s ∈ f.succ b, P s → Q s) (hP : e.inFact f P x b) : e.inFact f Q x b :=
  hP.imp_right fun hout => ⟨outFact_mono h hout.1, hout.2⟩

/-- A fact moves wherever more of its moves are known. -/
theorem Moved.mono {P Q : Label → Prop} {x : Nat} {b : Label}
    (h : ∀ s ∈ f.succ b, e.Moved x (P s) → e.Moved x (Q s))
    (hP : e.Moved x (e.inFact f P x b)) : e.Moved x (e.inFact f Q x b) := by
  unfold Moved at *
  -- away from the start is up for a fact that was absent and down for one that was there
  cases hx : e.initial.contains x with
  | false =>
    simp only [hx, iff_true] at *
    exact inFact_mono h hP
  | true =>
    simp only [hx, Bool.true_eq_false, iff_false] at *
    exact fun hQ => hP (inFact_mono (fun s hs hq => by_contra fun hp => h s hs hp hq) hQ)

theorem capacity_cross (b s : Label) (facts : IndexSet) :
    (e.cross b s facts).capacity = facts.capacity := by
  unfold cross
  induction e.arrivals.getD s [] generalizing facts with
  | nil => rfl
  | cons a as ih =>
    obtain ⟨src, y⟩ := a
    rw [List.foldl_cons, ih]
    dsimp only
    split
    · exact IndexSet.capacity_insert facts y
    · rfl

theorem contains_cross {b s : Label} {facts : IndexSet} {x : Nat} (hx : x < facts.capacity) :
    (e.cross b s facts).contains x = true ↔
      facts.contains x = true ∨ (b, x) ∈ e.arrivals.getD s [] := by
  unfold cross
  induction e.arrivals.getD s [] generalizing facts with
  | nil => simp
  | cons a as ih =>
    obtain ⟨src, y⟩ := a
    rw [List.foldl_cons]
    dsimp only
    split
    · next hsrc =>
      rw [ih (by simpa using hx), IndexSet.contains_insert, List.mem_cons, hsrc]
      simp only [Bool.or_eq_true, decide_eq_true_eq, Prod.mk.injEq, true_and]
      constructor
      · rintro ((h | ⟨rfl, -⟩) | h)
        · exact .inl h
        · exact .inr (.inl rfl)
        · exact .inr (.inr h)
      · rintro (h | rfl | h)
        · exact .inl (.inl h)
        · exact .inl (.inr ⟨rfl, hx⟩)
        · exact .inr h
    · next hsrc =>
      rw [ih hx, List.mem_cons]
      simp only [Prod.mk.injEq, Ne.symm hsrc, false_and, false_or]

theorem contains_through {b : Label} {facts : IndexSet} {x : Nat} (hx : x < facts.capacity) :
    (e.through b facts).contains x = true ↔
      (e.gen.getD b (IndexSet.empty e.capacity)).contains x = true ∨
        facts.contains x = true ∧
          (e.kill.getD b (IndexSet.empty e.capacity)).contains x = false := by
  simp [through, hx, or_comm]

theorem capacity_through (b : Label) (facts : IndexSet) :
    (e.through b facts).capacity = facts.capacity := by
  simp [through]

/-- All sets have room for the same facts. -/
structure Uniform (e : Equations) (ins : Array IndexSet) : Prop where
  boundary : e.boundary.capacity = e.capacity
  ins : ∀ b, (ins.getD b e.initial).capacity = e.capacity

variable {ins : Array IndexSet}

theorem capacity_gather (h : Uniform e ins) (b : Label) :
    (e.gather f ins b).capacity = e.capacity := by
  have union : ∀ (rest : List Label) (facts : IndexSet),
      (rest.foldl (fun facts t => facts.union (e.cross b t (ins.getD t e.initial)))
        facts).capacity = facts.capacity := by
    intro rest
    induction rest with
    | nil => exact fun _ => rfl
    | cons t rest ih => exact fun facts => ih _
  unfold gather
  split
  · exact h.boundary
  · next s rest _ =>
    exact (union rest _).trans ((capacity_cross b s _).trans (h.ins s))

theorem contains_gather (h : Uniform e ins) {b : Label} {x : Nat} (hx : x < e.capacity) :
    (e.gather f ins b).contains x = true ↔ e.outFact f (e.Known ins x) x b := by
  have arrive : ∀ s, (e.cross b s (ins.getD s e.initial)).contains x = true ↔
      e.Known ins x s ∨ (b, x) ∈ e.arrivals.getD s [] :=
    fun s => contains_cross (by rw [h.ins]; exact hx)
  have union : ∀ (rest : List Label) (facts : IndexSet), facts.capacity = e.capacity →
      ((rest.foldl (fun facts t => facts.union (e.cross b t (ins.getD t e.initial)))
        facts).contains x = true ↔
      facts.contains x = true ∨
        ∃ t ∈ rest, e.Known ins x t ∨ (b, x) ∈ e.arrivals.getD t []) := by
    intro rest
    induction rest with
    | nil => simp
    | cons t rest ih =>
      intro facts hf
      rw [List.foldl_cons, ih _ (by simpa using hf), IndexSet.contains_union]
      simp only [Bool.or_eq_true, Bool.and_eq_true, decide_eq_true_eq, hf, hx, and_true,
        arrive t, List.exists_mem_cons_iff, or_assoc]
  unfold gather outFact
  split
  · next hs => simp [hs]
  · next s rest hs =>
    rw [union rest _ (by rw [capacity_cross, h.ins]), arrive s, hs]
    simp

/-- A visit evaluates the equation of the top of a block. -/
theorem contains_top (h : Uniform e ins) {b : Label} {x : Nat} (hx : x < e.capacity) :
    (e.through b (e.gather f ins b)).contains x = true ↔ e.inFact f (e.Known ins x) x b := by
  rw [contains_through (by rw [capacity_gather h]; exact hx), contains_gather h hx]
  rfl

/-! ### What every visit keeps -/

/-- The state of a search: blocks that do not wait are settled, and facts only move in the
direction in which they move in every solution. -/
structure Inv (e : Equations) (f : Flow) (s : Search) : Prop where
  ins_size : s.known.ins.size = f.size
  outs_size : s.known.outs.size = f.size
  uniform : Uniform e s.known.ins
  nodup : s.queue.Nodup
  queue_lt : ∀ b ∈ s.queue, b < f.size
  settled : ∀ b, b < f.size → b ∉ s.queue →
    s.known.ins.getD b e.initial = e.through b (e.gather f s.known.ins b) ∧
      s.known.outs.getD b e.initial = e.gather f s.known.ins b
  onward : ∀ b x, b < f.size → x < e.capacity → e.Moved x (e.Known s.known.ins x b) →
    e.Moved x (e.inFact f (e.Known s.known.ins x) x b)
  below : ∀ x, x < e.capacity → ∀ P : Label → Prop,
    (∀ b, b < f.size → (P b ↔ e.inFact f P x b)) →
    ∀ b, b < f.size → e.Moved x (e.Known s.known.ins x b) → e.Moved x (P b)

theorem gather_congr {ins ins' : Array IndexSet} {b : Label}
    (h : ∀ s ∈ f.succ b, ins.getD s e.initial = ins'.getD s e.initial) :
    e.gather f ins b = e.gather f ins' b := by
  unfold gather
  split
  · rfl
  · next s rest hs =>
    rw [hs] at h
    dsimp only
    rw [h s List.mem_cons_self]
    refine List.foldl_ext _ _ _ fun facts t ht => ?_
    rw [h t (List.mem_cons_of_mem s ht)]

section Visit

variable {s : Search} {b : Label} {rest : List Label}

theorem getD_setIfInBounds {sets : Array IndexSet} (hb : b < sets.size) (x d : IndexSet)
    (c : Label) : (sets.setIfInBounds b x).getD c d = if c = b then x else sets.getD c d := by
  simp only [Array.getD_eq_getD_getElem?, Array.getElem?_setIfInBounds, hb, if_true]
  split
  · next hbc => rw [if_pos hbc.symm, Option.getD_some]
  · next hbc => rw [if_neg (Ne.symm hbc)]

/-- A visit sets the top of the block to what its equation says. -/
theorem ins_visit (h : Inv e f s) (hb : b < f.size) (c : Label) :
    (e.visit f s.known b rest).known.ins.getD c e.initial =
      if c = b then e.through b (e.gather f s.known.ins b) else s.known.ins.getD c e.initial :=
  getD_setIfInBounds (h.ins_size.symm ▸ hb) _ _ c

/-- A visit sets the end of the block to what its equation says. -/
theorem outs_visit (h : Inv e f s) (hb : b < f.size) (c : Label) :
    (e.visit f s.known b rest).known.outs.getD c e.initial =
      if c = b then e.gather f s.known.ins b else s.known.outs.getD c e.initial :=
  getD_setIfInBounds (h.outs_size.symm ▸ hb) _ _ c

theorem known_visit (h : Inv e f s) (hb : b < f.size) {x : Nat} (hx : x < e.capacity)
    (c : Label) :
    e.Known (e.visit f s.known b rest).known.ins x c ↔
      if c = b then e.inFact f (e.Known s.known.ins x) x b else e.Known s.known.ins x c := by
  rw [Known, ins_visit h hb]
  split
  · exact contains_top h.uniform hx
  · rfl

/-- Predecessors go back into the queue if the top of the block changes. -/
theorem mem_queue_visit {c : Label} : c ∈ (e.visit f s.known b rest).queue ↔ c ∈ rest ∨
    s.known.ins.getD b e.initial ≠ e.through b (e.gather f s.known.ins b) ∧
      c ∈ f.pred b ∧ c < f.size := by
  simp only [Equations.visit]
  split
  · next heq => exact ⟨.inl, fun hc => hc.resolve_right fun hne => hne.1 heq⟩
  · next hne => rw [mem_foldl_lineUp, and_iff_right hne]

theorem nodup_queue_visit (h : rest.Nodup) : (e.visit f s.known b rest).queue.Nodup := by
  simp only [Equations.visit]
  split
  · exact h
  · exact nodup_foldl_lineUp h

/-- A block whose successors the visit left alone gathers what it did. -/
theorem gather_visit (h : Inv e f s) (hb : b < f.size) {c : Label}
    (hc : b ∈ f.succ c → s.known.ins.getD b e.initial = e.through b (e.gather f s.known.ins b)) :
    e.gather f (e.visit f s.known b rest).known.ins c = e.gather f s.known.ins c := by
  refine gather_congr fun t ht => ?_
  rw [ins_visit h hb]
  split
  · next htb =>
    subst htb
    exact (hc ht).symm
  · rfl

/-- A visit moves facts and moves none back. -/
theorem Moved.visit (h : Inv e f s) (hb : b < f.size) {x : Nat} (hx : x < e.capacity) {c : Label}
    (hc : e.Moved x (e.Known s.known.ins x c)) :
    e.Moved x (e.Known (e.visit f s.known b rest).known.ins x c) := by
  unfold Moved
  rw [known_visit h hb hx c]
  split
  · next hcb =>
    subst hcb
    exact h.onward c x hb hx hc
  · exact hc

theorem Inv.visit (hf : f.Consistent) (h : Inv e f s) (hq : s.queue = b :: rest) :
    Inv e f (e.visit f s.known b rest) := by
  have hb : b < f.size := h.queue_lt b (by rw [hq]; exact List.mem_cons_self)
  have hnodup := h.nodup
  rw [hq, List.nodup_cons] at hnodup
  refine ⟨?_, ?_, ⟨h.uniform.boundary, fun c => ?_⟩, nodup_queue_visit hnodup.2,
    fun c hc => ?_, fun c hc hnot => ?_, fun c x hc hx hmoved => ?_,
    fun x hx P hP c hc hmoved => ?_⟩
  · simpa [Equations.visit] using h.ins_size
  · simpa [Equations.visit] using h.outs_size
  · rw [ins_visit h hb]
    split
    · rw [capacity_through, capacity_gather h.uniform]
    · exact h.uniform.ins c
  · rcases mem_queue_visit.1 hc with hc | ⟨-, -, hc⟩
    · exact h.queue_lt c (by rw [hq]; exact List.mem_cons_of_mem b hc)
    · exact hc
  · rw [mem_queue_visit, not_or] at hnot
    -- a predecessor that does not wait was not put back, so the top stayed as it was
    have hsame : e.gather f (e.visit f s.known b rest).known.ins c = e.gather f s.known.ins c := by
      refine gather_visit h hb fun hsucc => by_contra fun hne => hnot.2 ⟨hne, ?_, hc⟩
      exact hf.mem_pred c b hsucc
    rw [ins_visit h hb, outs_visit h hb, hsame]
    by_cases hcb : c = b
    · rw [if_pos hcb, if_pos hcb, hcb]
      exact ⟨rfl, rfl⟩
    · rw [if_neg hcb, if_neg hcb]
      refine h.settled c hc ?_
      rw [hq, List.mem_cons, not_or]
      exact ⟨hcb, hnot.1⟩
  · -- what moved at `c` moves again by what was known, hence by what is known now
    have again : e.Moved x (e.inFact f (e.Known s.known.ins x) x c) := by
      unfold Moved at hmoved
      rw [known_visit h hb hx c] at hmoved
      split at hmoved
      · next hcb => rwa [hcb]
      · exact h.onward c x hc hx hmoved
    exact again.mono fun t _ ht => Moved.visit h hb hx ht
  · unfold Moved at hmoved
    rw [known_visit h hb hx c] at hmoved
    split at hmoved
    · next hcb =>
      subst hcb
      have := Moved.mono (Q := P) (fun t ht => h.below x hx P hP t (hf.succ_lt c t ht)) hmoved
      unfold Moved at this ⊢
      rwa [hP c hc]
    · exact h.below x hx P hP c hc hmoved

/-! ### Counting moves -/

open Classical in
/-- How many facts have not moved at how many blocks. -/
noncomputable def unmoved (e : Equations) (f : Flow) (ins : Array IndexSet) : Nat :=
  ((Finset.range f.size ×ˢ Finset.range e.capacity).filter
    fun a => ¬ e.Moved a.2 (e.Known ins a.2 a.1)).card

theorem unmoved_le (ins : Array IndexSet) : unmoved e f ins ≤ f.size * e.capacity := by
  classical
  refine (Finset.card_filter_le _ _).trans ?_
  rw [Finset.card_product, Finset.card_range, Finset.card_range]

/-- A visit that changes the top of a block moves a fact. -/
theorem unmoved_visit_lt (h : Inv e f s) (hb : b < f.size)
    (hne : s.known.ins.getD b e.initial ≠ e.through b (e.gather f s.known.ins b)) :
    unmoved e f (e.visit f s.known b rest).known.ins < unmoved e f s.known.ins := by
  classical
  obtain ⟨x, hx⟩ : ∃ x, (s.known.ins.getD b e.initial).contains x ≠
      (e.through b (e.gather f s.known.ins b)).contains x := by
    by_contra hall
    simp only [not_exists, not_not] at hall
    refine hne (IndexSet.ext_contains ?_ hall)
    rw [h.uniform.ins, capacity_through, capacity_gather h.uniform]
  have hlt : x < e.capacity := by
    rcases hc : (s.known.ins.getD b e.initial).contains x with - | -
    · rw [hc] at hx
      have htop := IndexSet.lt_capacity (Bool.eq_true_of_not_eq_false hx.symm)
      rwa [capacity_through, capacity_gather h.uniform] at htop
    · have hin := IndexSet.lt_capacity hc
      rwa [h.uniform.ins] at hin
  -- the fact at hand had not moved: it would have moved again and so be the same
  have hold : ¬ e.Moved x (e.Known s.known.ins x b) := by
    intro hmoved
    have again := h.onward b x hb hlt hmoved
    rw [← contains_top h.uniform hlt] at again
    exact hx (Bool.eq_iff_iff.2 (Iff.trans hmoved again.symm))
  have hnew : e.Moved x (e.Known (e.visit f s.known b rest).known.ins x b) := by
    unfold Moved at hold ⊢
    rw [known_visit h hb hlt b, if_pos rfl, ← contains_top h.uniform hlt]
    unfold Known at hold
    revert hx hold
    cases (s.known.ins.getD b e.initial).contains x <;>
      cases (e.through b (e.gather f s.known.ins b)).contains x <;>
      cases e.initial.contains x <;> simp
  refine Finset.card_lt_card (Finset.ssubset_iff_of_subset ?_ |>.2 ⟨(b, x), ?_, ?_⟩)
  · intro a ha
    simp only [Finset.mem_filter, Finset.mem_product, Finset.mem_range] at ha ⊢
    exact ⟨ha.1, fun hm => ha.2 (Moved.visit h hb ha.1.2 hm)⟩
  · simp only [Finset.mem_filter, Finset.mem_product, Finset.mem_range]
    exact ⟨⟨hb, hlt⟩, hold⟩
  · simp only [Finset.mem_filter, not_and, not_not]
    exact fun _ => hnew

/-- A visit that changes nothing at the top of a block leaves all tops alone. -/
theorem unmoved_visit_eq
    (heq : s.known.ins.getD b e.initial = e.through b (e.gather f s.known.ins b)) :
    unmoved e f (e.visit f s.known b rest).known.ins = unmoved e f s.known.ins := by
  have hins : (e.visit f s.known b rest).known.ins = s.known.ins := by
    refine Array.ext_getElem? fun c => ?_
    simp only [Equations.visit, Array.getElem?_setIfInBounds]
    split
    · next hbc =>
      subst hbc
      split
      · next hlt =>
        rw [← heq, Array.getElem?_eq_getElem hlt]
        simp [Array.getD_eq_getD_getElem?, hlt]
      · next hlt => simp [Nat.le_of_not_lt hlt]
    · rfl
  rw [hins]

/-- The visits that are left: those in the queue, and for every move one per block. -/
noncomputable def potential (e : Equations) (f : Flow) (s : Search) : Nat :=
  s.queue.length + f.size * unmoved e f s.known.ins

theorem potential_visit_lt (hf : f.Consistent) (h : Inv e f s) (hq : s.queue = b :: rest) :
    potential e f (e.visit f s.known b rest) < potential e f s := by
  have hb : b < f.size := h.queue_lt b (by rw [hq]; exact List.mem_cons_self)
  have next := h.visit hf hq
  unfold potential
  by_cases heq : s.known.ins.getD b e.initial = e.through b (e.gather f s.known.ins b)
  · have hqueue : (e.visit f s.known b rest).queue = rest := by
      simp only [Equations.visit, heq, if_true]
    rw [unmoved_visit_eq heq, hqueue, hq, List.length_cons]
    omega
  · have hlt : unmoved e f (e.visit f s.known b rest).known.ins < unmoved e f s.known.ins :=
      unmoved_visit_lt h hb heq
    have hlen := length_le_of_queue next.nodup next.queue_lt
    have hmul := Nat.mul_le_mul_left f.size hlt
    rw [Nat.mul_succ] at hmul
    rw [hq, List.length_cons]
    omega

end Visit

/-! ### The whole search -/

/-- One round of the search: it goes on with the block at the front of the queue, and ends when
no block waits. -/
def next (e : Equations) (f : Flow) (s : Search) : Option Search :=
  match s.queue with
  | [] => none
  | b :: rest => some (e.visit f s.known b rest)

theorem next_of_nil {s : Search} (hq : s.queue = []) : e.next f s = none := by
  simp only [next, hq]

theorem next_of_cons {s : Search} {b : Label} {rest : List Label} (hq : s.queue = b :: rest) :
    e.next f s = some (e.visit f s.known b rest) := by
  simp only [next, hq]

/-- Enough visits empty the queue: the search without a bound ends, in the state in which the
bounded one stops. -/
theorem run_settles (hf : f.Consistent) {s : Search} (h : Inv e f s) {k : Nat}
    (hk : potential e f s ≤ k) :
    ∃ s' ∈ StateTransition.eval (e.next f) s,
      Inv e f s' ∧ s'.queue = [] ∧ e.run f k s = s'.known := by
  induction k generalizing s with
  | zero =>
    have hq : s.queue = [] := by
      unfold potential at hk
      exact List.eq_nil_of_length_eq_zero (by omega)
    exact ⟨s, mem_eval_of_none (next_of_nil hq), h, hq, rfl⟩
  | succ k ih =>
    rcases hq : s.queue with - | ⟨b, rest⟩
    · refine ⟨s, mem_eval_of_none (next_of_nil hq), h, hq, ?_⟩
      simp only [run, hq]
    · have hlt := potential_visit_lt hf h hq
      obtain ⟨s', heval, hs', hempty, hrun⟩ := ih (h.visit hf hq) (by omega)
      refine ⟨s', mem_eval_of_some (next_of_cons hq) heval, hs', hempty, ?_⟩
      simp only [run, hq]
      exact hrun

theorem inv_start (hb : e.boundary.capacity = e.capacity) : Inv e f (e.start f) := by
  have hins : ∀ b, (e.start f).known.ins.getD b e.initial = e.initial := by
    intro b
    simp only [start, Array.getD_eq_getD_getElem?, Array.getElem?_replicate]
    split <;> rfl
  -- at the start nothing has moved
  have still : ∀ x b, ¬ e.Moved x (e.Known (e.start f).known.ins x b) := by
    intro x b
    unfold Moved Known
    rw [hins b]
    cases e.initial.contains x <;> simp
  refine ⟨by simp [start], by simp [start], ⟨hb, ?_⟩, ?_, ?_, ?_, ?_, ?_⟩
  · intro b
    rw [hins b]
    rfl
  · exact nodup_foldl_lineUp List.nodup_nil
  · intro b hb
    rcases mem_foldl_lineUp.1 hb with hb | hb
    · cases hb
    · exact hb.2
  · intro b hlt hnot
    refine absurd (mem_foldl_lineUp.2 (.inr ⟨?_, hlt⟩)) hnot
    exact List.mem_append_right _ (List.mem_range.2 hlt)
  · intro b x _ _ hm
    exact absurd hm (still x b)
  · intro x _ P _ b _ hm
    exact absurd hm (still x b)

/-- The bound on the number of visits is enough. -/
theorem potential_start (hb : e.boundary.capacity = e.capacity) :
    potential e f (e.start f) ≤ e.visitBound f := by
  have start := inv_start (f := f) hb
  have hqueue := length_le_of_queue start.nodup start.queue_lt
  have hleft := Nat.mul_le_mul_left f.size (unmoved_le (e := e) (f := f) (e.start f).known.ins)
  have hmul : f.size * (f.size * e.capacity) = f.size * e.capacity * f.size := by ring
  unfold potential visitBound
  omega

/-- The search ends, and the solution that is found is what is known when no block waits. -/
theorem solve_settled (hf : f.Consistent) (hb : e.boundary.capacity = e.capacity) :
    ∃ s ∈ StateTransition.eval (e.next f) (e.start f),
      Inv e f s ∧ s.queue = [] ∧ e.solve f = s.known :=
  run_settles hf (inv_start hb) (potential_start hb)

end Equations

end ChordalAlloc
