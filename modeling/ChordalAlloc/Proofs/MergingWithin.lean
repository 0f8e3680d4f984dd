/-
ChordalAlloc/Proofs/MergingWithin.lean

Gathering classes and dropping copies without a request that has no answer.

Both are written down with checked tables: the forest of classes, which every
look-up changes, the lists of links of the nodes and the links themselves.
The classes stay alike (`Partition.Alike`) and all else is the same, so the two
runs can be followed side by side (`Gathering.Alike`, `Merging.Follows`).

A graph that mirrors classes has the links its nodes list and the nodes it
names (`MergeGraph.Mirrors`), which is all that merging asks of it.
-/
import ChordalAlloc.Proofs.KeptCopies
import ChordalAlloc.Proofs.PartitionWithin
import ChordalAlloc.PhiClasses

namespace ChordalAlloc

open MergeGraph (Meet)

/-! ### The classes of the phis -/

/-- As `join`, with checked links and ranks. -/
def Gathering.joinWithin (g : Gathering) (u v : Var) : Option Gathering :=
  if u < g.classes.size && v < g.classes.size then do
    let (ru, c) ← g.classes.findWithin u
    let (rv, c) ← c.findWithin v
    if ru = rv then pure { g with classes := c }
    else do
      let (_, c) ← c.unionWithin u v
      pure ⟨c, g.unions + 1⟩
  else pure g

/-- As `joinPhi`, with checked links and ranks. -/
def Gathering.joinPhiWithin (g : Gathering) (φ : Phi) : Option Gathering :=
  φ.reads.foldlM (fun g v => g.joinWithin φ.dst v) g

/-- As `phiClasses`, with checked links and ranks. -/
def Program.phiClassesWithin (p : Program) : Option Gathering :=
  (p.blocks.toList.flatMap (·.phis)).foldlM Gathering.joinPhiWithin
    { classes := Partition.discrete p.vars.size }

/-- The same number of unions led to classes that are alike. -/
structure Gathering.Alike (g g' : Gathering) : Prop where
  unions : g'.unions = g.unions
  classes : g.classes.Alike g'.classes

theorem Gathering.Alike.join {g g' : Gathering} (h : g.Alike g') (u v : Var) :
    ∃ g'', g'.joinWithin u v = some g'' ∧ (g.join u v).Alike g'' := by
  unfold Gathering.joinWithin Gathering.join
  rw [h.classes.size]
  by_cases huv : u < g.classes.size ∧ v < g.classes.size
  · obtain ⟨hu, hv⟩ := huv
    obtain ⟨c, hc, halike⟩ := h.classes.find hu
    obtain ⟨c', hc', halike'⟩ := halike.find hv
    obtain ⟨c'', hc'', hunion⟩ := halike'.union hu hv
    simp only [hu, hv, decide_true, Bool.and_self, if_true, Bool.true_and, hc, hc',
      Option.bind_eq_bind, Option.bind_some, Partition.same]
    by_cases hroot : g.classes.root u = g.classes.root v
    · rw [if_pos hroot, if_neg (by simp [hroot])]
      exact ⟨_, rfl, h.unions, halike'⟩
    · rw [if_neg hroot, if_pos (by simp [hroot]), hc'']
      exact ⟨_, rfl, congrArg (· + 1) h.unions, hunion⟩
  · have hno : (decide (u < g.classes.size) && decide (v < g.classes.size)) = false := by
      simpa using huv
    rw [hno, Bool.false_and, if_neg Bool.false_ne_true, if_neg Bool.false_ne_true]
    exact ⟨_, rfl, h⟩

theorem Program.phiClassesWithin_eq (p : Program) :
    ∃ g, p.phiClassesWithin = some g ∧ p.phiClasses.Alike g := by
  refine foldlM_of_step (fun g' g : Gathering => g.Alike g') (fun φ _ g' g h => ?_)
    ⟨rfl, (Partition.whole_discrete p.vars.size).alike⟩
  exact foldlM_of_step (fun g' g : Gathering => g.Alike g') (fun v _ _ _ h => h.join φ.dst v) h

/-! ### The graph of classes -/

namespace MergeGraph

/-- As `interferes`, with checked links. -/
def interferesWithin (m : MergeGraph) (a b : Nat) : Option Bool := do
  let ls ← (m.incident.getD a []).mapM fun e => m.links[e]?
  pure ((ls.filter (!·.isLoop)).any (·.other a == b))

/-- As `addLink`, for nodes that exist. -/
def addLinkWithin (m : MergeGraph) (a b : Nat) : Option MergeGraph :=
  if m.linked a b then some m
  else do
    let incident ← modifyAt? m.incident a fun es => some (es ++ [m.linkCount])
    let incident ←
      if a = b then some incident
      else modifyAt? incident b fun es => some (es ++ [m.linkCount])
    pure { m with links := m.links.push ⟨a, b⟩, incident }

/-- Make a node for the class of a variable, unless it has one. -/
def addVar (s : MergeGraph × Partition) (v : Nat) : Option (MergeGraph × Partition) := do
  let (r, c) ← s.2.findWithin v
  pure (s.1.addClass r, c)

/-- As `addClash`, with checked tables. -/
def addClashWithin (s : MergeGraph × Partition) (u v : Nat) : Option (MergeGraph × Partition) :=
  if u < s.2.size && v < s.2.size then do
    let (ru, c) ← s.2.findWithin u
    let (rv, c) ← c.findWithin v
    match s.1.nodeOf? ru, s.1.nodeOf? rv with
    | some a, some b => do
      let m ← s.1.addLinkWithin a b
      pure (m, c)
    | _, _ => pure (s.1, c)
  else pure s

/-- As `build`, with checked tables. -/
def buildWithin (g : Graph) (c : Partition) : Option (MergeGraph × Partition) := do
  let s ← (List.range c.size).foldlM addVar (({} : MergeGraph), c)
  g.edges.foldlM (fun s (u, v) => addClashWithin s u v) s

/-- As `moveLinks`, with checked nodes and links. -/
def moveLinksWithin (m : MergeGraph) (survivor absorbed : Nat) : Option MergeGraph := do
  let moved ← m.incident[absorbed]?
  let incident ← setAt? m.incident absorbed []
  let links ← moved.foldlM
    (fun ls e => modifyAt? ls e fun l => some (l.rename absorbed survivor)) m.links
  let incident ← modifyAt? incident survivor fun es => some (handOver es moved)
  pure { m with links, incident }

/-- As `merge`, with checked nodes and links. -/
def mergeWithin (m : MergeGraph) (survivor absorbed root : Nat) : Option MergeGraph := do
  let m ← if survivor = absorbed then some m else m.moveLinksWithin survivor absorbed
  pure
    { m with
      nodes := (root, survivor) :: m.nodes.filter fun (r, a) => a != absorbed && r != root }

variable {m : MergeGraph} {E : Nat → Nat → Prop} {R : Nat → Prop} {a b r : Nat}

theorem Mirrors.exists_link (h : m.Mirrors R E) (a : Nat) :
    ∀ e ∈ m.listed a, ∃ l, m.links[e]? = some l := by
  intro e he
  obtain ⟨l, hl, -⟩ := h.owned a e he
  exact ⟨l, hl⟩

theorem interferesWithin_eq (h : ∀ e ∈ m.listed a, ∃ l, m.links[e]? = some l) (b : Nat) :
    m.interferesWithin a b = some (m.interferes a b) := by
  have hlinks : (m.incident.getD a []).mapM (fun e => m.links[e]?) =
      some ((m.listed a).filterMap fun e => m.links[e]?) := mapM_eq_filterMap h
  rw [interferesWithin, hlinks]
  rfl

theorem addLinkWithin_eq (ha : a < m.incident.size) (hb : b < m.incident.size) :
    m.addLinkWithin a b = some (m.addLink a b) := by
  have hfst : modifyAt? m.incident a (fun es => some (es ++ [m.linkCount])) =
      some (m.incident.modify a (· ++ [m.linkCount])) := modifyAt?_eq ha fun _ _ => rfl
  have hsnd : modifyAt? (m.incident.modify a (· ++ [m.linkCount])) b
      (fun es => some (es ++ [m.linkCount])) =
        some ((m.incident.modify a (· ++ [m.linkCount])).modify b (· ++ [m.linkCount])) :=
    modifyAt?_eq (Array.size_modify.symm ▸ hb) fun _ _ => rfl
  unfold addLinkWithin addLink
  split
  · rfl
  · simp only [hfst, hsnd, Option.bind_eq_bind, Option.bind_some]
    split <;> rfl

/-- The nodes of the classes exist. -/
def Bounded (m : MergeGraph) : Prop := ∀ r a, (r, a) ∈ m.nodes → a < m.incident.size

theorem Bounded.addClass (h : m.Bounded) (r : Nat) : (m.addClass r).Bounded := by
  unfold MergeGraph.addClass
  split
  · exact h
  · intro s a ha
    have hsize : (m.incident.push []).size = m.incident.size + 1 := Array.size_push _
    rcases List.mem_cons.1 ha with heq | ha
    · cases heq
      exact hsize ▸ Nat.lt_succ_self _
    · exact hsize ▸ Nat.lt_succ_of_lt (h s a ha)

theorem Bounded.addLink (h : m.Bounded) (a b : Nat) : (m.addLink a b).Bounded := by
  intro r x hx
  rw [nodes_addLink] at hx
  rw [size_addLink]
  exact h r x hx

section Building

variable {c d : Partition}

/-- The graph is the same, and the classes are alike. -/
structure Beside (c : Partition) (s : MergeGraph × Partition) (m : MergeGraph) : Prop where
  graph : s.1 = m
  bounded : m.Bounded
  classes : c.Alike s.2

theorem Beside.addVar {s : MergeGraph × Partition} (h : Beside c s m) {v : Nat} (hv : v < c.size) :
    ∃ s', MergeGraph.addVar s v = some s' ∧ Beside c s' (m.addClass (c.root v)) := by
  obtain ⟨d, hd, halike⟩ := h.classes.find hv
  refine ⟨(s.1.addClass (c.root v), d), ?_, ?_, h.bounded.addClass _, halike⟩
  · rw [MergeGraph.addVar, hd]
    rfl
  · rw [h.graph]

theorem Beside.addClash {s : MergeGraph × Partition} (h : Beside c s m) (u v : Nat) :
    ∃ s', addClashWithin s u v = some s' ∧ Beside c s' (addClash c m u v) := by
  unfold addClashWithin MergeGraph.addClash
  rw [h.classes.size]
  split
  · next huv =>
    rw [Bool.and_eq_true, decide_eq_true_eq, decide_eq_true_eq] at huv
    obtain ⟨d, hd, halike⟩ := h.classes.find huv.1
    obtain ⟨d', hd', halike'⟩ := halike.find huv.2
    simp only [hd, hd', Option.bind_eq_bind, Option.bind_some, h.graph]
    rcases ha : m.nodeOf? (c.root u) with - | a
    · exact ⟨_, rfl, rfl, h.bounded, halike'⟩
    · rcases hb : m.nodeOf? (c.root v) with - | b
      · exact ⟨_, rfl, rfl, h.bounded, halike'⟩
      · have hla := h.bounded _ a (mem_of_nodeOf? ha)
        have hlb := h.bounded _ b (mem_of_nodeOf? hb)
        simp only [addLinkWithin_eq hla hlb, Option.bind_some]
        exact ⟨_, rfl, rfl, h.bounded.addLink a b, halike'⟩
  · exact ⟨s, rfl, h⟩

theorem buildWithin_eq (g : Graph) (h : c.Alike d) :
    ∃ d', buildWithin g d = some (build g c, d') ∧ c.Alike d' := by
  obtain ⟨s, hs, hbeside⟩ := foldlM_of_step (Beside c)
    (g := fun m v => m.addClass (c.root v))
    (fun v (hv : v ∈ List.range c.size) _ _ h => Beside.addVar h (List.mem_range.1 hv))
    (s := (({} : MergeGraph), d)) ⟨rfl, fun r a ha => absurd ha List.not_mem_nil, h⟩
  obtain ⟨⟨m, d'⟩, hs', rfl, -, halike⟩ := foldlM_of_step (Beside c)
    (fun e (_ : e ∈ g.edges) _ _ h => Beside.addClash h e.1 e.2) hbeside
  refine ⟨d', ?_, halike⟩
  rw [buildWithin, h.size, hs]
  exact hs'

end Building

theorem moveLinksWithin_eq (ha : a < m.incident.size) (hb : b < m.incident.size)
    (hlinks : ∀ e ∈ m.listed b, ∃ l, m.links[e]? = some l) :
    m.moveLinksWithin a b = some (m.moveLinks a b) := by
  have hmoved : m.incident[b]? = some (m.listed b) := getElem?_eq_getD hb []
  -- renaming the ends of a link does not change how many there are
  have hfold := (foldlM_eq_some (fun ls : Array Link => ls.size = m.links.size)
    (f := fun ls e => modifyAt? ls e fun l => some (l.rename b a))
    (g := fun ls e => ls.modify e (·.rename b a)) (fun e he ls hls => by
      obtain ⟨l, hl⟩ := hlinks e he
      have hlt : e < ls.size := hls.symm ▸ (Array.getElem?_eq_some_iff.1 hl).1
      exact ⟨modifyAt?_eq hlt fun _ _ => rfl, Array.size_modify.trans hls⟩) rfl).1
  have hgive : modifyAt? (m.incident.setIfInBounds b []) a
      (fun es => some (handOver es (m.listed b))) =
        some ((m.incident.setIfInBounds b []).modify a (handOver · (m.listed b))) :=
    modifyAt?_eq (Array.size_setIfInBounds.symm ▸ ha) fun _ _ => rfl
  simp only [moveLinksWithin, hmoved, setAt?_eq hb, hfold, hgive, Option.bind_eq_bind,
    Option.bind_some]
  rfl

theorem mergeWithin_eq (ha : a < m.incident.size) (hb : b < m.incident.size)
    (hlinks : ∀ e ∈ m.listed b, ∃ l, m.links[e]? = some l) (r : Nat) :
    m.mergeWithin a b r = some (m.merge a b r) := by
  unfold mergeWithin merge
  split
  · rfl
  · rw [moveLinksWithin_eq ha hb hlinks]
    rfl

end MergeGraph

/-! ### Dropping copies -/

namespace Merging

/-- As `join`, with checked tables. -/
def joinWithin (m : Merging) (source dest sourceNode destNode : Nat) : Option Merging := do
  let (root, classes) ← m.classes.unionWithin source dest
  let graph ←
    if root = source then m.graph.mergeWithin sourceNode destNode root
    else m.graph.mergeWithin destNode sourceNode root
  pure { m with classes, graph }

/-- Look up the classes of both variables of a copy. -/
def namesWithin (m : Merging) (c : EdgeCopy) : Option ((Nat × Nat) × Partition) := do
  let (source, classes) ← m.classes.findWithin c.value
  let (dest, classes) ← classes.findWithin c.dst
  pure ((source, dest), classes)

/-- Try to drop a copy between two classes, of which the nodes are known. -/
def attemptWithin (m : Merging) (c : EdgeCopy) (source dest sourceNode destNode : Nat) :
    Except (Stopped Merging) Merging := do
  let clash ← require ⟨.breach .index, m⟩ (m.graph.interferesWithin sourceNode destNode)
  if clash then pure (m.tell (.kept c.dst c.value))
  else do
    let m ← require ⟨.breach .index, m⟩ (m.joinWithin source dest sourceNode destNode)
    m.drop c

/-- As `step`, with checked tables. -/
def stepWithin (m : Merging) (c : EdgeCopy) : Except (Stopped Merging) Merging := do
  let (names, classes) ← require ⟨.breach .index, m⟩ (m.namesWithin c)
  let m := { m with classes }
  if names.1 = names.2 then m.drop c
  else
    match m.graph.nodeOf? names.1, m.graph.nodeOf? names.2 with
    | some a, some b => m.attemptWithin c names.1 names.2 a b
    | _, _ => pure m

variable {g : Graph} {p : Program} {c₀ d : Partition} {m m₁ : Merging} {e : EdgeCopy}
variable {past rest : List EdgeCopy} {first : Event} {r s a b : Nat}

/-- What is dropped does not depend on the classes. -/
theorem drop_classes (h : m.drop e = .ok m₁) (d : Partition) :
    ({ m with classes := d } : Merging).drop e = .ok { m₁ with classes := d } ∧
      m₁.classes = m.classes := by
  rcases drop_cases m e with ⟨q, hq, hdrop⟩ | ⟨stop, -, hdrop, -⟩
  · rcases drop_cases { m with classes := d } e with ⟨q', hq', hdrop'⟩ | ⟨stop, hq', -⟩
    · obtain rfl : q = q' := Option.some.inj (hq.symm.trans hq')
      rw [hdrop] at h
      cases h
      exact ⟨hdrop', rfl⟩
    · exact absurd (hq.symm.trans hq') (Option.some_ne_none q)
  · rw [hdrop] at h
    cases h

theorem joinWithin_eq (hm : m.graph.Mirrors m.classes.IsRoot (Meet g m.classes))
    (hd : m.classes.Alike d) (ha : (r, a) ∈ m.graph.nodes) (hb : (s, b) ∈ m.graph.nodes) :
    ∃ d', ({ m with classes := d } : Merging).joinWithin r s a b =
        some { m.join r s a b with classes := d' } ∧ (m.join r s a b).classes.Alike d' := by
  obtain ⟨hr, -⟩ := (hm.named r).2 ⟨a, ha⟩
  obtain ⟨hs, -⟩ := (hm.named s).2 ⟨b, hb⟩
  obtain ⟨d', hunion, halike⟩ := hd.union hr hs
  have hla := hm.bound r a ha
  have hlb := hm.bound s b hb
  refine ⟨d', ?_, halike⟩
  simp only [joinWithin, hunion, Option.bind_eq_bind, Option.bind_some, join,
    MergeGraph.mergeWithin_eq hla hlb (hm.exists_link b),
    MergeGraph.mergeWithin_eq hlb hla (hm.exists_link a)]
  split <;> rfl

/-- A copy that is tried in classes that are alike fares as it does without checks. -/
theorem step_alike (hm : m.graph.Mirrors m.classes.IsRoot (Meet g m.classes))
    (hd : m.classes.Alike d) (hfits : Fits m.classes e) (h : m.step e = .ok m₁) :
    ∃ d', ({ m with classes := d } : Merging).stepWithin e = .ok { m₁ with classes := d' } ∧
      m₁.classes.Alike d' := by
  obtain ⟨d₁, hd₁, halike₁⟩ := hd.find hfits.1
  obtain ⟨d', hd', halike⟩ := halike₁.find hfits.2
  have hnames : ({ m with classes := d } : Merging).namesWithin e =
      some ((m.classes.root e.value, m.classes.root e.dst), d') := by
    simp only [namesWithin, hd₁, hd', Option.bind_eq_bind, Option.bind_some]
    rfl
  rw [stepWithin, hnames, require_bind]
  dsimp only
  by_cases hroot : m.classes.root e.value = m.classes.root e.dst
  · rw [step_of_eq hfits hroot] at h
    obtain ⟨hdrop, hsame⟩ := drop_classes h d'
    rw [if_pos hroot]
    exact ⟨d', hdrop, hsame ▸ halike⟩
  · obtain ⟨a, ha⟩ := (hm.named _).1 (Partition.isRoot_root hd.forest hfits.1)
    obtain ⟨b, hb⟩ := (hm.named _).1 (Partition.isRoot_root hd.forest hfits.2)
    have hna := hm.nodeOf?_eq ha
    have hnb := hm.nodeOf?_eq hb
    rw [step_of_ne hfits hroot hna hnb] at h
    rw [if_neg hroot, hna, hnb]
    dsimp only
    rw [attemptWithin, MergeGraph.interferesWithin_eq (hm.exists_link a), require_bind]
    split at h
    · next hint =>
      cases h
      rw [if_pos hint]
      exact ⟨d', rfl, halike⟩
    · next hint =>
      obtain ⟨d₂, hjoin, halike₂⟩ := joinWithin_eq hm halike ha hb
      obtain ⟨hdrop, hsame⟩ := drop_classes h d₂
      rw [if_neg hint, hjoin, require_bind]
      exact ⟨d₂, hdrop, hsame ▸ halike₂⟩

/-- So do all copies that are left. -/
theorem Progress.run_alike (h : m.Progress g p c₀ first past) (hg : g.Sound)
    (hrest : ∀ e ∈ rest, Fits c₀ e) (hd : m.classes.Alike d)
    (hrun : rest.foldlM Merging.step m = .ok m₁) :
    ∃ d', rest.foldlM stepWithin { m with classes := d } = .ok { m₁ with classes := d' } ∧
      m₁.classes.Alike d' := by
  induction rest generalizing m past d with
  | nil =>
    cases hrun
    exact ⟨d, rfl, hd⟩
  | cons e rest ih =>
    obtain ⟨he, hrest⟩ := List.forall_mem_cons.1 hrest
    have hfits : Fits m.classes e := by
      unfold Fits
      rw [h.coarsens.size]
      exact he
    rw [List.foldlM_cons] at hrun ⊢
    rcases h.step hg he with ⟨m', hstep, h'⟩ | ⟨stop, hstep, -⟩
    · rw [hstep] at hrun
      obtain ⟨d', hstep', halike⟩ := step_alike h.mirrors hd hfits hstep
      rw [hstep']
      exact ih h' hrest halike hrun
    · rw [hstep] at hrun
      cases hrun

end Merging

namespace Program

/-- As `mergeCopies`, with checked tables. -/
def mergeCopiesWithin (p : Program) (copies : List EdgeCopy) (g : Graph) (classes : Partition) :
    Except (Stopped Merging) Merging := do
  let before : Merging := { program := p, classes, graph := {} }
  let (graph, classes) ← require ⟨.breach .index, before⟩ (MergeGraph.buildWithin g classes)
  let start : Merging :=
    { program := p, classes, graph, events := #[.linked graph.nodeCount graph.linkCount] }
  let m ← copies.foldlM Merging.stepWithin start
  pure (m.tell (.mergedAll m.removed copies.length))

/-- **Merging looks nothing up in vain** when it succeeds. -/
theorem mergeCopiesWithin_eq {p : Program} {copies : List EdgeCopy} {g : Graph} {c d : Partition}
    {m : Merging} (hg : g.Sound) (hd : c.Alike d) (hcopies : ∀ e ∈ copies, Merging.Fits c e)
    (h : p.mergeCopies copies g c = .ok m) :
    ∃ d', p.mergeCopiesWithin copies g d = .ok { m with classes := d' } ∧ m.classes.Alike d' := by
  obtain ⟨d₁, hbuild, halike⟩ := MergeGraph.buildWithin_eq g hd
  rw [mergeCopies_eq, Except.bind_eq_ok] at h
  obtain ⟨m', hrun, hm⟩ := h
  cases hm
  obtain ⟨d', hrun', halike'⟩ := (progress_start p hg hd.forest).run_alike hg hcopies halike hrun
  refine ⟨d', ?_, halike'⟩
  rw [mergeCopiesWithin, hbuild, require_bind]
  show copies.foldlM Merging.stepWithin { Merging.start p g c with classes := d₁ } >>= _ = _
  rw [hrun']
  rfl

end Program

end ChordalAlloc
