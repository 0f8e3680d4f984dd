/-
ChordalAlloc/Proofs/AnalysisWithin.lean

Live sets and interference without a request that has no answer.

Everything on the way from a program to its interference graph is written
down with requests that may fail: the sweep for the edges, the search for the
order of the blocks, the summaries, the equations and their solution, the walk
through the blocks and the graph.  If the labels of the blocks are their
positions, every request has its answer, and the result is that of
`Program.analyse` (`Program.analyseWithin_eq`).

What makes this so is that all sets have the same capacity, the number of
variables.  `Equations.Roomy` says so of the sets of the equations, and the
invariant of the search says so of the sets on the way.
-/
import ChordalAlloc.Proofs.Adjacency
import ChordalAlloc.Proofs.EdgeLists
import ChordalAlloc.Proofs.FinishOrder
import ChordalAlloc.Proofs.Liveness
import ChordalAlloc.Proofs.Lookups

namespace ChordalAlloc

/-! ### Edges -/

/-- As `noteTarget`, for a row that exists. -/
def noteTargetWithin (n : Nat) (label : Label) (s : List Label × Digraph) (t : Label) :
    Option (List Label × Digraph) :=
  if t < n ∧ t ∉ s.1 then do
    let preds ← modifyAt? s.2 t fun row => some (row ++ [label])
    pure (s.1 ++ [t], preds)
  else pure s

/-- As `noteBlock`, with checked rows. -/
def Flow.noteBlockWithin (n : Nat) (f : Flow) (b : Block) : Option Flow := do
  let (ts, preds) ← b.targets.foldlM (noteTargetWithin n b.label) ([], f.preds)
  pure { succs := f.succs.push ts, preds }

/-- As `flow`, in one sweep with checked rows. -/
def Program.flowWithin (p : Program) : Option Flow :=
  p.blocks.toList.foldlM (Flow.noteBlockWithin p.blocks.size) (.unread p.blocks.size)

theorem noteTargetWithin_eq {n : Nat} {label : Label} {s : List Label × Digraph}
    (hs : s.2.size = n) (t : Label) :
    noteTargetWithin n label s t = some (noteTarget n label s t) ∧
      (noteTarget n label s t).2.size = n := by
  unfold noteTargetWithin noteTarget
  split
  · next ht =>
    rw [modifyAt?_eq (hs.symm ▸ ht.1) fun _ _ => rfl]
    exact ⟨rfl, Array.size_modify.trans hs⟩
  · exact ⟨rfl, hs⟩

theorem Flow.noteBlockWithin_eq {n : Nat} {f : Flow} (hf : f.preds.size = n) (b : Block) :
    f.noteBlockWithin n b = some (f.noteBlock n b) ∧ (f.noteBlock n b).preds.size = n := by
  obtain ⟨hfold, hsize⟩ := foldlM_eq_some (fun s : List Label × Digraph => s.2.size = n)
    (fun t (_ : t ∈ b.targets) _ hs => noteTargetWithin_eq hs t) (s := ([], f.preds)) hf
  refine ⟨?_, hsize⟩
  rw [noteBlockWithin, hfold]
  rfl

theorem Program.flowWithin_eq (p : Program) : p.flowWithin = some p.flow := by
  obtain ⟨hfold, -⟩ := foldlM_eq_some (fun f : Flow => f.preds.size = p.blocks.size)
    (fun b (_ : b ∈ p.blocks.toList) _ hf => Flow.noteBlockWithin_eq hf b)
    (s := .unread p.blocks.size) Array.size_replicate
  rw [flowWithin, hfold, ← p.sweep_eq, Array.foldl_toList]
  rfl

/-! ### The order of the blocks -/

namespace Digraph

/-- Put the nodes of a list that exist and are not marked on a stack, the first one on top. -/
def pushFresh (g : Digraph) (seen : IndexSet) : List Nat → List Frame → Option (List Frame)
  | [], stack => some stack
  | v :: vs, stack => do
    let stack ← pushFresh g seen vs stack
    if v < g.size then do
      let marked ← seen.read? v
      pure (if marked then stack else .enter v :: stack)
    else pure stack

/-- As `finishLoop`, with checked marks. -/
def finishLoopWithin (g : Digraph) (seen : IndexSet) (stack : List Frame) (done : List Nat) :
    Option (List Nat) :=
  match stack with
  | [] => some done.reverse
  | .leave u :: rest => finishLoopWithin g seen rest (u :: done)
  | .enter u :: rest =>
    if u < seen.capacity then
      if seen.contains u = false then
        match pushFresh g (seen.insert u) (g.next u) (.leave u :: rest) with
        | none => none
        | some stack => finishLoopWithin g (seen.insert u) stack done
      else finishLoopWithin g seen rest done
    else none
termination_by (seen.capacity - seen.size, stack.length)
decreasing_by
  · exact Prod.Lex.right _ (Nat.lt_succ_self _)
  · exact Prod.Lex.left _ _ (Trip.unmarked_lt ⟨‹_›, ‹_›⟩ (.stay _))
  · exact Prod.Lex.right _ (Nat.lt_succ_self _)

/-- As `finishOrder`, with checked marks. -/
def finishOrderWithin (g : Digraph) (start : Nat) : Option (List Nat) :=
  if start < g.size then finishLoopWithin g (IndexSet.empty g.size) [.enter start] []
  else some []

theorem pushFresh_eq {g : Digraph} {seen : IndexSet} (hcap : seen.capacity = g.size)
    (vs : List Nat) (stack : List Frame) : pushFresh g seen vs stack =
      some ((vs.filter fun v => v < g.size && !seen.contains v).map .enter ++ stack) := by
  induction vs with
  | nil => rfl
  | cons v vs ih =>
    rw [pushFresh, ih, Option.bind_eq_bind, Option.bind_some]
    by_cases hv : v < g.size
    · rw [if_pos hv, IndexSet.read?_eq (hcap.symm ▸ hv)]
      rcases hmark : seen.contains v with - | -
      · simp [hv, hmark]
      · simp [hmark]
    · simp [hv]

theorem finishLoopWithin_eq {g : Digraph} {seen : IndexSet} {stack : List Frame} {done : List Nat}
    (hcap : seen.capacity = g.size) (hstack : ∀ u, .enter u ∈ stack → u < g.size) :
    finishLoopWithin g seen stack done = some (finishLoop g seen stack done) := by
  fun_induction finishLoop g seen stack done with
  | case1 seen done => rw [finishLoopWithin]
  | case2 seen done u rest ih =>
    rw [finishLoopWithin]
    exact ih hcap fun v hv => hstack v (List.mem_cons_of_mem _ hv)
  | case3 seen done u rest h fresh ih =>
    have hcap' : (seen.insert u).capacity = g.size := (seen.capacity_insert u).trans hcap
    rw [finishLoopWithin, if_pos h.1, if_pos h.2, pushFresh_eq hcap']
    -- what is put on the stack exists
    refine ih hcap' fun v hv => ?_
    rw [List.mem_append, List.mem_cons, List.mem_map] at hv
    rcases hv with ⟨w, hw, hwv⟩ | hv | hv
    · cases hwv
      have := (List.mem_filter.1 hw).2
      rw [Bool.and_eq_true, decide_eq_true_eq] at this
      exact this.1
    · cases hv
    · exact hstack v (List.mem_cons_of_mem _ hv)
  | case4 seen done u rest h ih =>
    have hu : u < seen.capacity := hcap.symm ▸ hstack u List.mem_cons_self
    rw [finishLoopWithin, if_pos hu, if_neg fun hnew => h ⟨hu, hnew⟩]
    exact ih hcap fun v hv => hstack v (List.mem_cons_of_mem _ hv)

theorem finishOrderWithin_eq (g : Digraph) (start : Nat) :
    g.finishOrderWithin start = some (g.finishOrder start) := by
  unfold finishOrderWithin finishOrder
  by_cases hs : start < g.size
  · rw [if_pos hs]
    apply finishLoopWithin_eq rfl
    intro u hu
    cases List.mem_singleton.1 hu
    exact hs
  · rw [if_neg hs, finishLoop, dif_neg fun h => hs h.1, finishLoop]
    rfl

end Digraph

/-! ### Flow equations -/

namespace Equations

/-- As `cross`, with room for the facts that arrive. -/
def crossWithin (e : Equations) (source target : Label) (facts : IndexSet) : Option IndexSet :=
  (e.arrivals.getD target []).foldlM
    (fun s (src, fact) => if src = source then s.add? fact else some s) facts

/-- As `through`, for a block that has sets of the right capacity. -/
def throughWithin (e : Equations) (b : Label) (facts : IndexSet) : Option IndexSet := do
  let kept ← facts.subtract? (← e.kill[b]?)
  kept.meet? (← e.gen[b]?)

/-- As `gather`, for successors that have sets of the right capacity. -/
def gatherWithin (e : Equations) (f : Flow) (ins : Array IndexSet) (b : Label) :
    Option IndexSet :=
  let arrive s := ins[s]?.bind (e.crossWithin b s)
  match f.succ b with
  | [] => some e.boundary
  | s :: rest => do rest.foldlM (fun facts t => do facts.meet? (← arrive t)) (← arrive s)

/-- As `start`: the blocks without successors are entered in the table one by one. -/
def startWithin (e : Equations) (f : Flow) : Option Search := do
  let order ← f.succs.finishOrderWithin 0
  let outs ← f.exits.foldlM (fun outs b => setAt? outs b e.boundary)
    (Array.replicate f.size e.initial)
  pure
    { known := { ins := Array.replicate f.size e.initial, outs, visits := 0 }
      queue := (order ++ List.range f.size).foldl (lineUp f.size) [] }

/-- As `visit`, for a block that is in the tables. -/
def visitWithin (e : Equations) (f : Flow) (k : Solution) (b : Label) (rest : List Label) :
    Option Search := do
  let out ← e.gatherWithin f k.ins b
  let outs ← setAt? k.outs b out
  let top ← e.throughWithin b out
  let old ← k.ins[b]?
  let ins ← setAt? k.ins b top
  pure
    { known := { ins, outs, visits := k.visits + 1 }
      queue := if old = top then rest else (f.pred b).foldl (lineUp f.size) rest }

/-- As `run`, for a queue that is empty after the given number of visits. -/
def runWithin (e : Equations) (f : Flow) : Nat → Search → Option Solution
  | 0, s => if s.queue = [] then some s.known else none
  | k + 1, s =>
    match s.queue with
    | [] => some s.known
    | b :: rest => do e.runWithin f k (← e.visitWithin f s.known b rest)

/-- As `solve`, with checked tables and sets and a queue that runs empty. -/
def solveWithin (e : Equations) (f : Flow) : Option Solution := do
  e.runWithin f (e.visitBound f) (← e.startWithin f)

/-- Every block has its sets, and there is room for all facts. -/
structure Roomy (e : Equations) (f : Flow) : Prop where
  boundary : e.boundary.capacity = e.capacity
  gen : ∀ b, b < f.size → ∃ s, e.gen[b]? = some s ∧ s.capacity = e.capacity
  kill : ∀ b, b < f.size → ∃ s, e.kill[b]? = some s ∧ s.capacity = e.capacity
  arrivals : ∀ t source fact, (source, fact) ∈ e.arrivals.getD t [] → fact < e.capacity

variable {e : Equations} {f : Flow}

theorem Roomy.crossWithin_eq (h : e.Roomy f) {source target : Label} {facts : IndexSet}
    (hfacts : facts.capacity = e.capacity) :
    e.crossWithin source target facts = some (e.cross source target facts) := by
  refine (foldlM_eq_some (fun s : IndexSet => s.capacity = e.capacity) ?_ hfacts).1
  rintro ⟨src, fact⟩ ha s hs
  dsimp only
  split
  · have hfact : fact < s.capacity := hs.symm ▸ h.arrivals target src fact ha
    exact ⟨IndexSet.add?_eq hfact, (s.capacity_insert fact).trans hs⟩
  · exact ⟨rfl, hs⟩

theorem Roomy.throughWithin_eq (h : e.Roomy f) {b : Label} (hb : b < f.size) {facts : IndexSet}
    (hfacts : facts.capacity = e.capacity) :
    e.throughWithin b facts = some (e.through b facts) := by
  obtain ⟨gen, hgen, hgen'⟩ := h.gen b hb
  obtain ⟨kill, hkill, hkill'⟩ := h.kill b hb
  have hthrough : e.through b facts = (facts.diff kill).union gen := by
    rw [through, Array.getD_eq_getD_getElem?, Array.getD_eq_getD_getElem?, hgen, hkill]
    rfl
  rw [throughWithin, hkill, hthrough, Option.bind_eq_bind, Option.bind_some,
    IndexSet.subtract?_eq (hfacts.trans hkill'.symm), Option.bind_some, hgen, Option.bind_some]
  exact IndexSet.meet?_eq (hfacts.trans hgen'.symm)

theorem Roomy.gatherWithin_eq (h : e.Roomy f) (hf : f.Consistent) {ins : Array IndexSet}
    (hsize : ins.size = f.size) (hins : Uniform e ins) (b : Label) :
    e.gatherWithin f ins b = some (e.gather f ins b) := by
  have harrive : ∀ s, s ∈ f.succ b → ins[s]?.bind (e.crossWithin b s) =
      some (e.cross b s (ins.getD s e.initial)) := by
    intro s hs
    have hlt : s < ins.size := hsize.symm ▸ hf.succ_lt b s hs
    rw [getElem?_eq_getD hlt e.initial, Option.bind_some, h.crossWithin_eq (hins.ins s)]
  have hcross : ∀ s, (e.cross b s (ins.getD s e.initial)).capacity = e.capacity := fun s =>
    (capacity_cross b s _).trans (hins.ins s)
  unfold gatherWithin gather
  rcases hs : f.succ b with - | ⟨s, rest⟩
  · rfl
  · rw [hs] at harrive
    dsimp only
    rw [harrive s List.mem_cons_self]
    refine (foldlM_eq_some (fun facts : IndexSet => facts.capacity = e.capacity) ?_ (hcross s)).1
    intro t ht facts hfacts
    rw [harrive t (List.mem_cons_of_mem s ht)]
    exact ⟨IndexSet.meet?_eq (hfacts.trans (hcross t).symm), hfacts⟩

/-- Entering the same set at several places, one by one. -/
theorem getElem?_foldl_set (x : IndexSet) (bs : List Label) (outs : Array IndexSet) (c : Nat) :
    (bs.foldl (fun outs b => outs.setIfInBounds b x) outs)[c]? =
      outs[c]?.map fun y => if c ∈ bs then x else y := by
  induction bs generalizing outs with
  | nil => simp
  | cons b bs ih =>
    rw [List.foldl_cons, ih, Array.getElem?_setIfInBounds]
    by_cases hbc : b = c
    · subst hbc
      by_cases hb : b < outs.size
      · simp [hb]
      · simp [hb]
    · simp [hbc, Ne.symm hbc]

/-- Entering the exits one by one gives the table of all ends. -/
theorem foldl_exits (e : Equations) (f : Flow) :
    f.exits.foldlM (fun outs b => setAt? outs b e.boundary) (Array.replicate f.size e.initial)
      = some (e.start f).known.outs := by
  have hstep : ∀ b ∈ f.exits, ∀ outs : Array IndexSet, outs.size = f.size →
      setAt? outs b e.boundary = some (outs.setIfInBounds b e.boundary) ∧
        (outs.setIfInBounds b e.boundary).size = f.size := by
    intro b hb outs houts
    have hlt : b < f.size := List.mem_range.1 (List.mem_filter.1 hb).1
    exact ⟨setAt?_eq (houts.symm ▸ hlt) _, Array.size_setIfInBounds.trans houts⟩
  obtain ⟨hfold, -⟩ := foldlM_eq_some (fun outs : Array IndexSet => outs.size = f.size)
    (f := fun outs b => setAt? outs b e.boundary) hstep
    (s := Array.replicate f.size e.initial) Array.size_replicate
  rw [hfold]
  refine congrArg some (Array.ext_getElem? fun c => ?_)
  rw [getElem?_foldl_set]
  by_cases hc : c < f.size
  · simp [start, Flow.exits, hc]
  · simp [start, hc]

theorem startWithin_eq (e : Equations) (f : Flow) : e.startWithin f = some (e.start f) := by
  rw [startWithin, Digraph.finishOrderWithin_eq, foldl_exits]
  rfl

theorem Roomy.visitWithin_eq (h : e.Roomy f) (hf : f.Consistent) {s : Search} (hs : Inv e f s)
    {b : Label} {rest : List Label} (hq : s.queue = b :: rest) :
    e.visitWithin f s.known b rest = some (e.visit f s.known b rest) := by
  have hb : b < f.size := hs.queue_lt b (by rw [hq]; exact List.mem_cons_self)
  have hins : b < s.known.ins.size := hs.ins_size.symm ▸ hb
  have hout := h.gatherWithin_eq hf hs.ins_size hs.uniform b
  have htop := h.throughWithin_eq hb (capacity_gather (f := f) hs.uniform b)
  have houts : b < s.known.outs.size := hs.outs_size.symm ▸ hb
  simp only [visitWithin, hout, setAt?_eq houts, htop, getElem?_eq_getD hins e.initial,
    setAt?_eq hins, Option.bind_eq_bind, Option.bind_some]
  rfl

theorem Roomy.runWithin_eq (h : e.Roomy f) (hf : f.Consistent) {s : Search} (hs : Inv e f s)
    {k : Nat} (hk : potential e f s ≤ k) : e.runWithin f k s = some (e.run f k s) := by
  induction k generalizing s with
  | zero =>
    -- the length of the queue is part of the potential
    have hq : s.queue = [] := by
      unfold potential at hk
      exact List.eq_nil_of_length_eq_zero (by omega)
    rw [runWithin, if_pos hq, run]
  | succ k ih =>
    rcases hq : s.queue with - | ⟨b, rest⟩
    · simp only [runWithin, run, hq]
    · have hlt := potential_visit_lt hf hs hq
      simp only [runWithin, run, hq]
      rw [h.visitWithin_eq hf hs hq]
      exact ih (hs.visit hf hq) (by omega)

theorem Roomy.solveWithin_eq (h : e.Roomy f) (hf : f.Consistent) :
    e.solveWithin f = some (e.solve f) := by
  rw [solveWithin, startWithin_eq]
  exact h.runWithin_eq hf (inv_start h.boundary) (potential_start h.boundary)

end Equations

/-! ### Live variables -/

/-- As `step`, with room for the variables below `n`. -/
def Summary.stepWithin (n : Nat) (s : Summary) (i : Instr) : Option Summary := do
  let exposed ← i.reads.foldlM
    (fun e v => if !s.written.contains v then e.addBelow? n v else some e) s.exposed
  let written ← i.dst?.toList.foldlM (IndexSet.addBelow? n) s.written
  pure { exposed, written }

/-- As `summary`, with room for the variables below `n`. -/
def Block.summaryWithin (b : Block) (n : Nat) : Option Summary := do
  let written ← (b.phis.map (·.dst)).foldlM (IndexSet.addBelow? n) (IndexSet.empty n)
  b.body.foldlM (Summary.stepWithin n) { exposed := IndexSet.empty n, written }

/-- Both sets of a summary have room for the variables below `n`. -/
def Summary.Fits (n : Nat) (s : Summary) : Prop :=
  s.exposed.capacity = n ∧ s.written.capacity = n

theorem Summary.Fits.stepWithin_eq {n : Nat} {s : Summary} (h : s.Fits n) (i : Instr) :
    s.stepWithin n i = some (s.step i) ∧ (s.step i).Fits n := by
  obtain ⟨hexposed, hwritten⟩ := capacity_step s i
  refine ⟨?_, hexposed.trans h.1, hwritten.trans h.2⟩
  have hreads : i.reads.foldlM
      (fun e v => if !s.written.contains v then e.addBelow? n v else some e) s.exposed =
        some ((i.reads.filter fun v => !s.written.contains v).foldl IndexSet.insert
          s.exposed) := by
    rw [List.foldl_filter]
    refine (foldlM_eq_some (fun e : IndexSet => e.capacity = n) (fun v _ e he => ?_) h.1).1
    split
    · exact ⟨IndexSet.addBelow?_eq he v, (e.capacity_insert v).trans he⟩
    · exact ⟨rfl, he⟩
  rw [stepWithin, hreads, IndexSet.foldlM_addBelow? h.2]
  rfl

theorem Block.summaryWithin_eq (b : Block) (n : Nat) :
    b.summaryWithin n = some (b.summary n) ∧ (b.summary n).Fits n := by
  rw [summaryWithin, IndexSet.foldlM_addBelow? (IndexSet.capacity_empty n)]
  exact foldlM_eq_some (Summary.Fits n) (fun i _ _ hs => hs.stepWithin_eq i)
    ⟨rfl, IndexSet.capacity_ofList n _⟩

namespace Program

variable {p : Program}

/-- As `liveEquations`, with summaries that are there. -/
def liveEquationsWithin (p : Program) : Option Equations := do
  let sums ← p.blocks.toList.mapM (·.summaryWithin p.vars.size)
  let named ← p.blocks.toList.mapM fun b => sums[b.label]?
  pure
    { p.liveEquations with
      gen := (named.map (·.exposed)).toArray
      kill := (named.map (·.written)).toArray }

/-- As `liveness`, with checked tables and sets. -/
def livenessWithin (p : Program) : Option Solution := do
  let f ← p.flowWithin
  let e ← p.liveEquationsWithin
  e.solveWithin f

theorem liveEquationsWithin_eq (hp : p.Indexed) :
    p.liveEquationsWithin = some p.liveEquations := by
  have hsums : p.blocks.toList.mapM (·.summaryWithin p.vars.size) =
      some (p.blocks.toList.map (·.summary p.vars.size)) :=
    mapM_eq_some fun b _ => (b.summaryWithin_eq _).1
  have hnamed : p.blocks.toList.mapM
      (fun b => (p.blocks.toList.map (·.summary p.vars.size))[b.label]?) =
      some (p.blocks.toList.map (·.summary p.vars.size)) := by
    refine mapM_eq_some fun b hb => ?_
    obtain ⟨k, hk⟩ := List.mem_iff_getElem?.1 hb
    rw [Array.getElem?_toList] at hk
    rw [hp k b hk, List.getElem?_map, Array.getElem?_toList, hk]
    rfl
  have hlook : ∀ b ∈ p.blocks, p.summaries.getD b.label
      { exposed := IndexSet.empty p.vars.size, written := IndexSet.empty p.vars.size }
        = b.summary p.vars.size := by
    intro b hb
    obtain ⟨k, hk⟩ := Array.mem_iff_getElem?.1 hb
    exact summaries_getD hk (hp k b hk) _
  -- the table of summaries by label is the table by position
  have htable : p.blocks.map (fun b => p.summaries.getD b.label
      { exposed := IndexSet.empty p.vars.size, written := IndexSet.empty p.vars.size })
        = (p.blocks.toList.map (·.summary p.vars.size)).toArray := by
    rw [← Array.toList_map, Array.toArray_toList]
    exact Array.map_congr_left hlook
  rw [liveEquationsWithin, hsums, Option.bind_eq_bind, Option.bind_some, hnamed, Option.bind_some]
  simp only [liveEquations, htable, List.map_toArray]
  rfl

theorem roomy_liveEquations (hp : p.Indexed) : p.liveEquations.Roomy p.flow where
  boundary := rfl
  gen b hb := by
    obtain ⟨block, hblock⟩ := exists_block (size_flow (p := p) ▸ hb)
    refine ⟨_, ?_, (block.summaryWithin_eq p.vars.size).2.1⟩
    rw [← gen_liveEquations hblock (hp b block hblock) (IndexSet.empty 0)]
    simp [liveEquations, hblock]
  kill b hb := by
    obtain ⟨block, hblock⟩ := exists_block (size_flow (p := p) ▸ hb)
    refine ⟨_, ?_, (block.summaryWithin_eq p.vars.size).2.2⟩
    rw [← kill_liveEquations hblock (hp b block hblock) (IndexSet.empty 0)]
    simp [liveEquations, hblock]
  arrivals t source fact hmem := by
    rw [liveEquations, Array.getD_eq_getD_getElem?, Array.getElem?_map] at hmem
    rcases hb : p.blocks[t]? with - | block
    · rw [hb] at hmem
      cases hmem
    · rw [hb] at hmem
      simp only [Option.map_some, Option.getD_some, Block.phiReads, List.mem_flatMap,
        List.mem_map, List.mem_filter, decide_eq_true_eq, Prod.mk.injEq] at hmem
      obtain ⟨φ, -, a, ⟨-, ha⟩, -, rfl⟩ := hmem
      exact ha

theorem livenessWithin_eq (hp : p.Indexed) : p.livenessWithin = some p.liveness := by
  rw [livenessWithin, flowWithin_eq, liveEquationsWithin_eq hp]
  exact (roomy_liveEquations hp).solveWithin_eq (consistent_flow hp)

end Program

/-! ### Interference -/

/-- As `liveBefore`: a variable that is read has to fit into the set, unless it is beyond its
capacity. -/
def Instr.liveBeforeWithin (i : Instr) (after : IndexSet) : Option IndexSet :=
  i.reads.foldlM (IndexSet.addBelow? after.capacity) (i.dst?.toList.foldl IndexSet.erase after)

/-- As `walkBack`, with room for what is read. -/
def walkBackWithin : List Instr → IndexSet → Option (IndexSet × List (Var × Var))
  | [], after => some (after, [])
  | i :: rest, after => do
    let (live, pairs) ← walkBackWithin rest after
    let before ← i.liveBeforeWithin live
    pure (before, i.clashes live ++ pairs)

/-- As `clashes`, with room for what is read. -/
def Block.clashesWithin (b : Block) (liveOut : IndexSet) : Option (List (Var × Var)) := do
  let (live, pairs) ← walkBackWithin b.body liveOut
  pure (pairs ++ phiClashes live (b.phis.map (·.dst)))

/-- The clashes of a block, if it is known what is live at its end; live sets are looked up by
label. -/
def Block.clashesIn (b : Block) (live : Solution) : Option (List (Var × Var)) :=
  match live.outs[b.label]? with
  | some out => b.clashesWithin out
  | none => some []

/-- As `addEdge`, with checked rows that have room for both ends. -/
def Graph.addEdgeWithin (g : Graph) (a b : Nat) : Option Graph :=
  if a = b ∨ g.size ≤ a ∨ g.size ≤ b then some g
  else do
    let rows ← modifyAt? g.rows a (·.add? b)
    let rows ← modifyAt? rows b (·.add? a)
    pure ⟨rows⟩

namespace Program

/-- As `blockClashes`, with room for what is read. -/
def blockClashesWithin (p : Program) (live : Solution) : Option (List (Var × Var)) := do
  let pairs ← p.blocks.toList.mapM (·.clashesIn live)
  pure pairs.flatten

/-- As `interference`, with checked rows. -/
def interferenceWithin (p : Program) (live : Solution) (params : Nat) : Option Graph := do
  let pairs ← p.blockClashesWithin live
  (pairs ++ p.entryClashes live params).foldlM (fun g (a, b) => g.addEdgeWithin a b)
    (Graph.empty p.vars.size)

/-- As `analyse`, with checked tables and sets. -/
def analyseWithin (p : Program) (params : Nat) (parallel : Bool) : Option Clashes := do
  let live ← p.livenessWithin
  let graph ← p.interferenceWithin live params
  pure
    { graph
      events :=
        [.settled live.visits live.ins.size,
         .interference p.vars.size graph.edgeCount parallel] }

end Program

theorem Instr.liveBeforeWithin_eq (i : Instr) (after : IndexSet) :
    i.liveBeforeWithin after = some (i.liveBefore after) := by
  refine IndexSet.foldlM_addBelow? ?_ i.reads
  rcases i.dst? with - | d
  · rfl
  · exact after.capacity_erase d

theorem walkBackWithin_eq (is : List Instr) (after : IndexSet) :
    walkBackWithin is after = some (walkBack is after) := by
  induction is with
  | nil => rfl
  | cons i rest ih =>
    rw [walkBackWithin, ih, walkBack]
    simp only [Option.bind_eq_bind, Option.bind_some, Instr.liveBeforeWithin_eq, Option.pure_def]

theorem Block.clashesWithin_eq (b : Block) (liveOut : IndexSet) :
    b.clashesWithin liveOut = some (b.clashes liveOut) := by
  rw [clashesWithin, walkBackWithin_eq]
  rfl

theorem Graph.Sound.addEdgeWithin_eq {g : Graph} (hg : g.Sound) (a b : Nat) :
    g.addEdgeWithin a b = some (g.addEdge a b) := by
  have hrow : ∀ (c : Nat) (x : IndexSet), g.rows[c]? = some x → x.capacity = g.size := by
    intro c x hx
    have hcap := hg.capacity c (Array.getElem?_eq_some_iff.1 hx).1
    rwa [Array.getD_eq_getD_getElem?, hx, Option.getD_some] at hcap
  unfold Graph.addEdgeWithin Graph.addEdge
  split
  · rfl
  · next h =>
    simp only [not_or, Nat.not_le] at h
    obtain ⟨hab, ha, hb⟩ := h
    have hfst : modifyAt? g.rows a (·.add? b) = some (g.rows.modify a (·.insert b)) :=
      modifyAt?_eq ha fun x hx => IndexSet.add?_eq (hrow a x hx ▸ hb)
    have hsnd : modifyAt? (g.rows.modify a (·.insert b)) b (·.add? a)
        = some ((g.rows.modify a (·.insert b)).modify b (·.insert a)) := by
      refine modifyAt?_eq (Array.size_modify.symm ▸ hb) fun x hx => ?_
      rw [Array.getElem?_modify, if_neg hab] at hx
      exact IndexSet.add?_eq (hrow b x hx ▸ ha)
    rw [hfst, Option.bind_eq_bind, Option.bind_some, hsnd]
    rfl

namespace Program

variable {p : Program}

theorem blockClashesWithin_eq (p : Program) (live : Solution) :
    p.blockClashesWithin live = some (p.blockClashes live) := by
  have hpairs : p.blocks.toList.mapM (·.clashesIn live) =
      some (p.blocks.toList.map fun b => (live.outs[b.label]?.map b.clashes).getD []) := by
    refine mapM_eq_some fun b _ => ?_
    unfold Block.clashesIn
    rcases live.outs[b.label]? with - | out
    · rfl
    · exact b.clashesWithin_eq out
  rw [blockClashesWithin, hpairs, blockClashes, List.flatMap_def]
  rfl

theorem interferenceWithin_eq (p : Program) (live : Solution) (params : Nat) :
    p.interferenceWithin live params = some (p.interference live params) := by
  rw [interferenceWithin, blockClashesWithin_eq]
  exact (foldlM_eq_some Graph.Sound
    (fun e _ g hg => ⟨hg.addEdgeWithin_eq e.1 e.2, hg.addEdge e.1 e.2⟩)
    (Graph.sound_empty p.vars.size)).1

/-- **Nothing is looked up in vain**, if the labels of the blocks are their positions. -/
theorem analyseWithin_eq (hp : p.Indexed) (params : Nat) (parallel : Bool) :
    p.analyseWithin params parallel = some (p.analyse params parallel) := by
  rw [analyseWithin, livenessWithin_eq hp, Option.bind_eq_bind, Option.bind_some,
    interferenceWithin_eq]
  rfl

end Program

end ChordalAlloc
