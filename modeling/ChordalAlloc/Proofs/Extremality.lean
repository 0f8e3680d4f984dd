/-
ChordalAlloc/Proofs/Extremality.lean

What the search for a solution of flow equations finds.

`Solves` writes the equations down as they are meant, for the sets at both
ends of all blocks at once.  They may have many solutions: around a loop a
fact can hold because it holds.  The search starts from the facts of
`initial` everywhere and leaves them only where it has to, so it finds the
solution nearest to them: facts that are not assumed at the start hold only
where they hold in every solution, facts that are assumed hold wherever they
hold in some solution (`Nearer`).

The search itself is the loop that visits blocks until none waits, without
a bound on the number of visits; `StateTransition.eval` has a value there
exactly if the loop ends.
-/
import ChordalAlloc.Proofs.Equations
import ChordalAlloc.Proofs.Liveness

namespace ChordalAlloc

namespace Equations

variable {e : Equations} {f : Flow} {b : Label} {x : Nat}

/-! ### Solutions -/

/-- The sets at both ends of every block satisfy the equations. -/
structure Solves (e : Equations) (f : Flow) (k : Solution) : Prop where
  ins_size : k.ins.size = f.size
  outs_size : k.outs.size = f.size
  capacity : ∀ b, b < f.size → (k.outs.getD b e.initial).capacity = e.capacity
  /-- What holds at the top comes from the end or is brought about in the block. -/
  top : ∀ b, b < f.size → k.ins.getD b e.initial =
    ((k.outs.getD b e.initial).diff (e.kill.getD b (IndexSet.empty e.capacity))).union
      (e.gen.getD b (IndexSet.empty e.capacity))
  /-- What holds at the end holds at the top of a successor or arises on the way to it. -/
  inner : ∀ b, b < f.size → f.succ b ≠ [] → ∀ x,
    (k.outs.getD b e.initial).contains x = true ↔
      ∃ s ∈ f.succ b, (k.ins.getD s e.initial).contains x = true ∨
        (b, x) ∈ e.arrivals.getD s []
  final : ∀ b, b < f.size → f.succ b = [] → k.outs.getD b e.initial = e.boundary

/-- The facts of the first set that were absent at the start are in the second, and the facts of
the second that were there at the start are in the first. -/
def Nearer (e : Equations) (s t : IndexSet) : Prop :=
  ∀ x, (e.initial.contains x = false → s.contains x = true → t.contains x = true) ∧
    (e.initial.contains x = true → t.contains x = true → s.contains x = true)

/-- A fact that arises on an edge is one the sets have room for. -/
theorem lt_of_fits (he : e.fits f = true) (hb : b < f.size) {s : Label} (hs : s ∈ f.succ b)
    (hx : (b, x) ∈ e.arrivals.getD s []) : x < e.capacity := by
  simp only [fits, Bool.and_eq_true, List.all_eq_true, List.mem_range] at he
  have := he.2 b hb s hs (b, x) hx
  simpa using this

theorem Inv.solves {s : Search} (h : Inv e f s) (hq : s.queue = []) (he : e.fits f = true) :
    e.Solves f s.known := by
  have settled : ∀ b, b < f.size →
      s.known.ins.getD b e.initial = e.through b (e.gather f s.known.ins b) ∧
        s.known.outs.getD b e.initial = e.gather f s.known.ins b :=
    fun b hb => h.settled b hb (by rw [hq]; exact List.not_mem_nil)
  have capacity : ∀ b, b < f.size → (s.known.outs.getD b e.initial).capacity = e.capacity := by
    intro b hb
    rw [(settled b hb).2, capacity_gather h.uniform]
  refine ⟨h.ins_size, h.outs_size, capacity, fun b hb => ?_, fun b hb hsucc x => ?_,
    fun b hb hsucc => ?_⟩
  · rw [(settled b hb).1, ← (settled b hb).2]
    rfl
  · have holds : x < e.capacity → ((s.known.outs.getD b e.initial).contains x = true ↔
        ∃ t ∈ f.succ b, e.Known s.known.ins x t ∨ (b, x) ∈ e.arrivals.getD t []) := by
      intro hx
      rw [(settled b hb).2, contains_gather h.uniform hx]
      exact or_iff_right fun hnil => hsucc hnil.1
    -- beyond the capacity nothing holds on either side
    constructor
    · intro hout
      exact (holds (capacity b hb ▸ IndexSet.lt_capacity hout)).1 hout
    · rintro ⟨t, ht, hin⟩
      refine (holds ?_).2 ⟨t, ht, hin⟩
      rcases hin with hin | harrive
      · exact h.uniform.ins t ▸ IndexSet.lt_capacity hin
      · exact lt_of_fits he hb ht harrive
  · rw [(settled b hb).2]
    simp only [gather, hsucc]

/-! ### A solution fact by fact -/

section Fact

variable {k : Solution}

theorem Solves.contains_out (h : e.Solves f k) (hb : b < f.size) :
    (k.outs.getD b e.initial).contains x = true ↔ e.outFact f (e.Known k.ins x) x b := by
  unfold outFact
  rcases hsucc : f.succ b with - | ⟨s, rest⟩
  · rw [h.final b hb hsucc]
    simp
  · have hne : f.succ b ≠ [] := by simp [hsucc]
    rw [h.inner b hb hne x, hsucc]
    exact ⟨.inr, fun hout => hout.resolve_left fun hnil => nomatch hnil.1⟩

theorem Solves.known_iff (h : e.Solves f k) (hb : b < f.size) (hx : x < e.capacity) :
    e.Known k.ins x b ↔ e.inFact f (e.Known k.ins x) x b := by
  have hroom : x < (k.outs.getD b e.initial).capacity := by rw [h.capacity b hb]; exact hx
  rw [Known, h.top b hb]
  exact (contains_through hroom).trans
    (or_congr_right (and_congr_left fun _ => h.contains_out hb))

theorem Solves.lt_of_known (h : e.Solves f k) (hb : b < f.size) (hx : e.Known k.ins x b) :
    x < e.capacity := by
  have hroom := IndexSet.lt_capacity hx
  rwa [h.top b hb, IndexSet.capacity_union, IndexSet.capacity_diff, h.capacity b hb] at hroom

end Fact

/-! ### The solution that is found -/

section Found

variable {s : Search} {k : Solution}

theorem Inv.nearer_ins (h : Inv e f s) (hk : e.Solves f k) (hb : b < f.size) :
    e.Nearer (s.known.ins.getD b e.initial) (k.ins.getD b e.initial) := by
  intro x
  have below : x < e.capacity → e.Moved x (e.Known s.known.ins x b) →
      e.Moved x (e.Known k.ins x b) :=
    fun hx => h.below x hx (e.Known k.ins x) (fun c hc => hk.known_iff hc hx) b hb
  unfold Moved at below
  constructor
  · intro hinit hin
    have hx : x < e.capacity := h.uniform.ins b ▸ IndexSet.lt_capacity hin
    exact (below hx (iff_of_true hin hinit)).2 hinit
  · intro hinit hin
    have hx : x < e.capacity := hk.lt_of_known hb hin
    -- withdrawn by the search means absent from the other solution
    by_contra hout
    have hne : ¬ e.initial.contains x = false := by simp [hinit]
    exact hne ((below hx (iff_of_false hout hne)).1 hin)

theorem Solves.nearer_outs (hf : f.Consistent) {k' : Solution} (hk : e.Solves f k)
    (hk' : e.Solves f k')
    (hins : ∀ b, b < f.size → e.Nearer (k.ins.getD b e.initial) (k'.ins.getD b e.initial))
    (hb : b < f.size) : e.Nearer (k.outs.getD b e.initial) (k'.outs.getD b e.initial) := by
  intro x
  rw [hk.contains_out hb, hk'.contains_out hb]
  constructor
  · intro hinit
    exact outFact_mono fun s hs => (hins s (hf.succ_lt b s hs) x).1 hinit
  · intro hinit
    exact outFact_mono fun s hs => (hins s (hf.succ_lt b s hs) x).2 hinit

end Found

end Equations

/-- **The search ends with the extremal solution.**  Whatever the edges of a program, whatever
sets of one capacity the equations are made of and whatever arises on the edges: visiting blocks
until none waits comes to an end, what is known then is the answer, and it satisfies the equations.
Of all solutions it is the least on the facts that are absent at the start and the greatest on
those that are there. -/
theorem Program.solve_extremal (p : Program) (hp : p.Indexed) (e : Equations)
    (hb : e.boundary.capacity = e.capacity) (he : e.fits p.flow = true) :
    ∃ s ∈ StateTransition.eval (e.next p.flow) (e.start p.flow),
      e.solve? p.flow = some s.known ∧ e.Solves p.flow s.known ∧
      ∀ k, e.Solves p.flow k → ∀ b, b < p.blocks.size →
        e.Nearer (s.known.ins.getD b e.initial) (k.ins.getD b e.initial) ∧
          e.Nearer (s.known.outs.getD b e.initial) (k.outs.getD b e.initial) := by
  have hf := consistent_flow hp
  obtain ⟨s, heval, hinv, hq, hsolve⟩ := Equations.solve_settled hf hb
  have hfound := hinv.solves hq he
  refine ⟨s, heval, ?_, hfound, fun k hk b hlt => ?_⟩
  · rw [Equations.solve?, if_pos he, hsolve]
  · have hins : ∀ b, b < p.flow.size →
        e.Nearer (s.known.ins.getD b e.initial) (k.ins.getD b e.initial) :=
      fun b hb => hinv.nearer_ins hk hb
    rw [← size_flow] at hlt
    exact ⟨hins b hlt, hfound.nearer_outs hf hk hins hlt⟩

/-- A loop that can be entered at both of its blocks, and a block out of reach that leads to
itself. -/
def tangle : Program where
  vars := #[{ id := 0 }]
  blocks := #[
    { label := 0, body := [.branch 0 1 2] },
    { label := 1, body := [.jump 2] },
    { label := 2, body := [.branch 0 1 3] },
    { label := 3, body := [.ret none] },
    { label := 4, body := [.jump 4] }]

theorem indexed_tangle : tangle.Indexed := by
  intro b block h
  rcases b with - | - | - | - | - | b <;> cases h <;> rfl

/-- Facts 1 and 3 are assumed and the loop only passes them on, so there are solutions without
them; fact 2 arises on the way back into the loop. -/
def tangleFacts : Equations where
  boundary := .ofList 4 [0]
  initial := .ofList 4 [1, 3]
  gen := #[.ofList 4 [3], .empty 4, .empty 4, .empty 4, .empty 4]
  kill := #[.ofList 4 [0, 1], .empty 4, .empty 4, .empty 4, .ofList 4 [1]]
  arrivals := Equations.arrivalsOf 5 [(2, 1, 2)]

theorem solve_extremal_tangle :
    tangleFacts.boundary.capacity = tangleFacts.capacity ∧
      tangleFacts.fits tangle.flow = true ∧
      ∃ s ∈ StateTransition.eval (tangleFacts.next tangle.flow) (tangleFacts.start tangle.flow),
        tangleFacts.solve? tangle.flow = some s.known ∧ tangleFacts.Solves tangle.flow s.known ∧
        ∀ k, tangleFacts.Solves tangle.flow k → ∀ b, b < tangle.blocks.size →
          tangleFacts.Nearer (s.known.ins.getD b tangleFacts.initial)
              (k.ins.getD b tangleFacts.initial) ∧
            tangleFacts.Nearer (s.known.outs.getD b tangleFacts.initial)
              (k.outs.getD b tangleFacts.initial) := by
  have hfits : tangleFacts.fits tangle.flow = true := by decide +kernel
  exact ⟨rfl, hfits, tangle.solve_extremal indexed_tangle tangleFacts rfl hfits⟩

end ChordalAlloc
