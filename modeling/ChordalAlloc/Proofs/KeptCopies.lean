/-
ChordalAlloc/Proofs/KeptCopies.lean

Which copies stay.

Copies are tried once, each on the strength of the classes as they are then,
which earlier copies have changed.  Still the outcome can be told from the
classes at the end: the copies that went are those whose two variables share
a class, and every copy that stayed has its variables in classes with
adjacent members (`Program.mergeCopies_maximal`).  So nothing is gained by
trying again.

The reason is that joining classes goes one way.  Classes with adjacent
members are never joined, so they stay apart for good and keep their adjacent
members (`Partition.Coarsens`), and what was decided about a copy holds until
the end.

`Merging.Progress.step` and `Merging.Progress.run` say all there is to say
about trying one copy and about trying many, on any program.  If the work
stops, it is because some of the copies were taken out and the next one could
not be (`Program.Stuck`).
-/
import ChordalAlloc.Merging
import ChordalAlloc.Proofs.ClassGraph

namespace ChordalAlloc

open MergeGraph (Meet)

/-! ### Classes that grow -/

namespace Partition

/-- The second partition is made of the first by joining classes without adjacent members. -/
structure Coarsens (g : Graph) (c c' : Partition) : Prop extends c.Grows c' where
  apart : ∀ u v, u < c.size → v < c.size → g.adjacent u v = true → c.root u ≠ c.root v →
    c'.root u ≠ c'.root v

/-- No class has adjacent members. -/
def Independent (g : Graph) (c : Partition) : Prop :=
  ∀ u v, u < c.size → v < c.size → g.adjacent u v = true → c.root u ≠ c.root v

/-- Members of the classes of two variables are adjacent, and the classes are not the same. -/
def Conflict (g : Graph) (c : Partition) (u v : Nat) : Prop :=
  c.root u ≠ c.root v ∧ Meet g c (c.root u) (c.root v)

variable {g : Graph} {c c' c'' : Partition} {u v r s : Nat}

theorem Coarsens.refl (h : c.Forest) : Coarsens g c c := ⟨.refl h, fun _ _ _ _ _ => id⟩

theorem Coarsens.trans (h : Coarsens g c c') (h' : Coarsens g c' c'') : Coarsens g c c'' where
  toGrows := h.toGrows.trans h'.toGrows
  apart u v hu hv hadj hne :=
    h'.apart u v (h.size.symm ▸ hu) (h.size.symm ▸ hv) hadj (h.apart u v hu hv hadj hne)

theorem Coarsens.independent (h : Coarsens g c c') (hc : Independent g c) : Independent g c' := by
  intro u v hu hv hadj
  rw [h.size] at hu hv
  exact h.apart u v hu hv hadj (hc u v hu hv hadj)

/-- A conflict lasts. -/
theorem Coarsens.conflict (h : Coarsens g c c') (hc : Conflict g c u v) : Conflict g c' u v := by
  obtain ⟨hne, x, y, hx, hy, hadj, hxu, hyv⟩ := hc
  -- the adjacent members stay with `u` and `v`, and apart from each other
  have hu := h.keep x u hxu
  have hv := h.keep y v hyv
  refine ⟨?_, x, y, h.size.symm ▸ hx, h.size.symm ▸ hy, hadj, hu, hv⟩
  rw [← hu, ← hv]
  refine h.apart x y hx hy hadj ?_
  rw [hxu, hyv]
  exact hne

/-- Classes that do not meet may be joined. -/
theorem Coarsens.of_joined (hg : g.Sound) {t : Nat} (hj : c.Joined c' r s t)
    (hmeet : ¬ Meet g c r s) : Coarsens g c c' where
  toGrows := hj.grows
  apart u v hu hv hadj hne heq := by
    rcases hj.cases heq with heq | ⟨hur, hvs⟩ | ⟨hus, hvr⟩
    · exact hne heq
    · exact hmeet ⟨u, v, hu, hv, hadj, hur, hvs⟩
    · exact hmeet ⟨v, u, hv, hu, hg.symm u v hadj, hvr, hus⟩

end Partition

open ChordalAlloc.Partition (Coarsens Conflict Independent)

/-- Take a copy out, if it stands where its record says and the phi it was made for is there: a
`nop` takes its place, and the phi reads what was copied. -/
def Program.dropCopy? (p : Program) (e : EdgeCopy) : Option Program :=
  if (p.blocks[e.location]?.bind fun b => b.body[e.index]?) = some (.copy e.dst e.value) then
    ((p.modifyBlock e.location fun b => { b with body := b.body.set e.index .nop }).onPhiArg?
      e.site.block e.site.phi e.site.arg fun a => { a with value := e.value }).map (·.2)
  else none

/-- Some of the copies can be taken out one after the other, up to one that cannot. -/
def Program.Stuck (p : Program) (copies : List EdgeCopy) : Prop :=
  ∃ es e q, (es ++ [e]).Sublist copies ∧ es.foldlM Program.dropCopy? p = some q ∧
    q.dropCopy? e = none

namespace EdgeCopy

/-- The two variables of a copy share a class. -/
def joined (c : Partition) (e : EdgeCopy) : Bool := c.same e.value e.dst

/-- What is told about a copy, if its variables end up in these classes. -/
def verdict (c : Partition) (e : EdgeCopy) : Event :=
  if e.joined c then .merged e.dst e.value else .kept e.dst e.value

variable {g : Graph} {c c' : Partition} {e : EdgeCopy}

theorem joined_iff : e.joined c = true ↔ c.root e.value = c.root e.dst := beq_iff_eq

theorem joined_of_conflict (h : Conflict g c e.value e.dst) : e.joined c = false :=
  beq_false_of_ne h.1

/-- A copy whose variables share a class or conflict is judged as before when classes grow. -/
theorem joined_eq (h : Coarsens g c c')
    (he : e.joined c = false → Conflict g c e.value e.dst) : e.joined c' = e.joined c := by
  rcases hjoined : e.joined c with - | -
  · exact joined_of_conflict (h.conflict (he hjoined))
  · exact joined_iff.2 (h.keep _ _ (joined_iff.1 hjoined))

end EdgeCopy

/-- What the classes at the end say about the copies that were tried: those within a class were
taken out, and no others.  The others conflict. -/
structure Merging.Settles (g : Graph) (p : Program) (es : List EdgeCopy) (m : Merging) : Prop where
  program : (es.filter (·.joined m.classes)).foldlM Program.dropCopy? p = some m.program
  removed : m.removed = (es.filter (·.joined m.classes)).length
  kept : ∀ e ∈ es, e.joined m.classes = false → Conflict g m.classes e.value e.dst

namespace Merging

variable {p : Program} {g : Graph} {c₀ : Partition} {m : Merging} {past rest : List EdgeCopy}
variable {e : EdgeCopy} {first : Event} {a b : Nat}

/-! ### Trying a copy -/

/-- Dropping a copy edits the program and counts, or stops and leaves the classes as they are. -/
theorem drop_cases (m : Merging) (e : EdgeCopy) :
    (∃ q, m.program.dropCopy? e = some q ∧ m.drop e =
      .ok ({ m with program := q, removed := m.removed + 1 }.tell (.merged e.dst e.value))) ∨
    ∃ stop, m.program.dropCopy? e = none ∧ m.drop e = .error stop ∧
      stop.state.classes = m.classes := by
  unfold drop Program.dropCopy?
  by_cases hfound : (m.program.blocks[e.location]?.bind fun b => b.body[e.index]?)
      = some (.copy e.dst e.value)
  · rw [if_neg (not_not_intro hfound), if_pos hfound]
    dsimp only
    split
    · next hq =>
      rw [hq]
      exact .inr ⟨_, rfl, rfl, rfl⟩
    · next hq =>
      rw [hq]
      exact .inl ⟨_, rfl, rfl⟩
  · rw [if_pos hfound, if_neg hfound]
    exact .inr ⟨_, rfl, rfl, rfl⟩

/-- The variables of a copy exist. -/
def Fits (c : Partition) (e : EdgeCopy) : Prop := e.value < c.size ∧ e.dst < c.size

theorem step_of_eq (he : Fits m.classes e) (h : m.classes.root e.value = m.classes.root e.dst) :
    m.step e = m.drop e := by
  unfold step
  rw [if_neg (not_or.2 ⟨Nat.not_le.2 he.1, Nat.not_le.2 he.2⟩)]
  exact if_pos h

theorem step_of_ne (he : Fits m.classes e) (h : m.classes.root e.value ≠ m.classes.root e.dst)
    (ha : m.graph.nodeOf? (m.classes.root e.value) = some a)
    (hb : m.graph.nodeOf? (m.classes.root e.dst) = some b) :
    m.step e = if m.graph.interferes a b then .ok (m.tell (.kept e.dst e.value))
      else (m.join (m.classes.root e.value) (m.classes.root e.dst) a b).drop e := by
  unfold step
  rw [if_neg (not_or.2 ⟨Nat.not_le.2 he.1, Nat.not_le.2 he.2⟩)]
  dsimp only
  rw [if_neg h, ha, hb]

/-! ### The whole run -/

/-- The state after the copies `past`. -/
structure Progress (g : Graph) (p : Program) (c₀ : Partition) (first : Event)
    (past : List EdgeCopy) (m : Merging) : Prop extends m.Settles g p past where
  coarsens : Coarsens g c₀ m.classes
  mirrors : m.graph.Mirrors m.classes.IsRoot (Meet g m.classes)
  told : m.events.toList = first :: past.map (·.verdict m.classes)

/-- Classes that do not meet become one, and nothing changes for the copies tried before. -/
theorem Progress.join (h : m.Progress g p c₀ first past) (hg : g.Sound) {r s : Nat}
    (ha : (r, a) ∈ m.graph.nodes) (hb : (s, b) ∈ m.graph.nodes) (hrs : r ≠ s)
    (hmeet : ¬ Meet g m.classes r s) :
    (m.join r s a b).Progress g p c₀ first past ∧ ∀ u v, m.classes.root u = r →
      m.classes.root v = s → (m.join r s a b).classes.root u = (m.join r s a b).classes.root v := by
  obtain ⟨hltr, hr⟩ := (h.mirrors.named r).2 ⟨a, ha⟩
  obtain ⟨hlts, hs⟩ := (h.mirrors.named s).2 ⟨b, hb⟩
  have hj := h.coarsens.forest.joined_union hltr hlts
  rw [hr, hs] at hj
  have hc : Coarsens g m.classes (m.join r s a b).classes := .of_joined hg hj hmeet
  -- the copies tried before are told apart by the new classes as they were by the old ones
  have hsame : ∀ e ∈ past, e.joined (m.join r s a b).classes = e.joined m.classes :=
    fun e he => EdgeCopy.joined_eq hc (h.kept e he)
  have hfilter := List.filter_congr hsame
  refine ⟨⟨⟨?_, ?_, fun e he hjoined => ?_⟩, h.coarsens.trans hc, ?_, ?_⟩, fun u v => hj.root_eq⟩
  · rw [hfilter]
    exact h.program
  · rw [hfilter]
    exact h.removed
  · rw [hsame e he] at hjoined
    exact hc.conflict (h.kept e he hjoined)
  · exact h.mirrors.unite h.coarsens.forest ha hb hrs
  · refine h.told.trans (congrArg _ (List.map_congr_left fun e he => ?_))
    rw [EdgeCopy.verdict, EdgeCopy.verdict, hsame e he]

/-- Dropping a copy within a class. -/
theorem Progress.drop (h : m.Progress g p c₀ first past) (he : e.joined m.classes = true) :
    (∃ m', m.drop e = .ok m' ∧ m'.Progress g p c₀ first (past ++ [e])) ∨
    ∃ stop, m.drop e = .error stop ∧ Coarsens g c₀ stop.state.classes ∧ p.Stuck (past ++ [e]) := by
  rcases drop_cases m e with ⟨q, hq, hdrop⟩ | ⟨stop, hq, hdrop, hclasses⟩
  · refine .inl ⟨_, hdrop, ⟨⟨?_, ?_, fun x hx hjoined => ?_⟩, h.coarsens, h.mirrors, ?_⟩⟩
    · show ((past ++ [e]).filter (·.joined m.classes)).foldlM Program.dropCopy? p = some q
      rw [List.filter_append, List.filter_cons_of_pos he, List.filter_nil, List.foldlM_append,
        h.program]
      simp [hq]
    · show m.removed + 1 = ((past ++ [e]).filter (·.joined m.classes)).length
      rw [List.filter_append, List.filter_cons_of_pos he, List.filter_nil, List.length_append,
        ← h.removed]
      rfl
    · rcases List.mem_append.1 hx with hx | hx
      · exact h.kept x hx hjoined
      · cases List.mem_singleton.1 hx
        exact absurd (hjoined.symm.trans he) Bool.false_ne_true
    · show (m.events.push _).toList = first :: (past ++ [e]).map (·.verdict m.classes)
      rw [Array.toList_push, h.told, List.map_append, List.map_singleton, EdgeCopy.verdict,
        if_pos he]
      rfl
  · refine .inr ⟨stop, hdrop, by rw [hclasses]; exact h.coarsens, _, e, m.program, ?_, h.program,
      hq⟩
    exact List.filter_sublist.append_right [e]

/-- Leaving a copy between classes that conflict. -/
theorem Progress.keep (h : m.Progress g p c₀ first past)
    (he : Conflict g m.classes e.value e.dst) :
    (m.tell (.kept e.dst e.value)).Progress g p c₀ first (past ++ [e]) := by
  have hjoined := EdgeCopy.joined_of_conflict he
  have hfilter : (past ++ [e]).filter (·.joined m.classes) = past.filter (·.joined m.classes) := by
    rw [List.filter_append, List.filter_cons_of_neg (by simp [hjoined]), List.filter_nil,
      List.append_nil]
  refine ⟨⟨?_, ?_, fun x hx hx' => ?_⟩, h.coarsens, h.mirrors, ?_⟩
  · exact hfilter ▸ h.program
  · exact hfilter ▸ h.removed
  · rcases List.mem_append.1 hx with hx | hx
    · exact h.kept x hx hx'
    · cases List.mem_singleton.1 hx
      exact he
  · show (m.events.push _).toList = first :: (past ++ [e]).map (·.verdict m.classes)
    rw [Array.toList_push, h.told, List.map_append, List.map_singleton, EdgeCopy.verdict,
      if_neg (by simp [hjoined])]
    rfl

/-- A copy between classes that conflict stays. -/
theorem step_of_conflict (hm : m.graph.Mirrors m.classes.IsRoot (Meet g m.classes))
    (hc : m.classes.Forest) (hfits : Fits m.classes e)
    (he : Conflict g m.classes e.value e.dst) : m.step e = .ok (m.tell (.kept e.dst e.value)) := by
  obtain ⟨a, ha⟩ := (hm.named _).1 (Partition.isRoot_root hc hfits.1)
  obtain ⟨b, hb⟩ := (hm.named _).1 (Partition.isRoot_root hc hfits.2)
  rw [step_of_ne hfits he.1 (hm.nodeOf?_eq ha) (hm.nodeOf?_eq hb)]
  exact if_pos (hm.interferes he.2 he.1 ha hb)

/-- Trying one copy. -/
theorem Progress.step (h : m.Progress g p c₀ first past) (hg : g.Sound) (hfits : Fits c₀ e) :
    (∃ m', m.step e = .ok m' ∧ m'.Progress g p c₀ first (past ++ [e])) ∨
    ∃ stop, m.step e = .error stop ∧ Coarsens g c₀ stop.state.classes ∧ p.Stuck (past ++ [e]) := by
  have hc := h.coarsens.forest
  have hfits : Fits m.classes e := by
    unfold Fits
    rw [h.coarsens.size]
    exact hfits
  by_cases hroot : m.classes.root e.value = m.classes.root e.dst
  · rw [step_of_eq hfits hroot]
    exact h.drop (EdgeCopy.joined_iff.2 hroot)
  · by_cases hmeet : Meet g m.classes (m.classes.root e.value) (m.classes.root e.dst)
    · rw [step_of_conflict h.mirrors hc hfits ⟨hroot, hmeet⟩]
      exact .inl ⟨_, rfl, h.keep ⟨hroot, hmeet⟩⟩
    · obtain ⟨a, ha⟩ := (h.mirrors.named _).1 (Partition.isRoot_root hc hfits.1)
      obtain ⟨b, hb⟩ := (h.mirrors.named _).1 (Partition.isRoot_root hc hfits.2)
      have hna := h.mirrors.nodeOf?_eq ha
      have hnb := h.mirrors.nodeOf?_eq hb
      -- the graph of classes is exact: it denies what does not hold
      have hfree : ¬ m.graph.interferes a b = true := fun hint =>
        hmeet (((h.mirrors.depicts hg).interferes _ _ a b hroot hna hnb).1 hint)
      obtain ⟨hjoin, hone⟩ := h.join hg ha hb hroot hmeet
      rw [step_of_ne hfits hroot hna hnb, if_neg hfree]
      exact hjoin.drop (EdgeCopy.joined_iff.2 (hone _ _ rfl rfl))

/-- Trying the copies that are left. -/
theorem Progress.run (h : m.Progress g p c₀ first past) (hg : g.Sound)
    (hrest : ∀ e ∈ rest, Fits c₀ e) :
    (∃ m', rest.foldlM Merging.step m = .ok m' ∧ m'.Progress g p c₀ first (past ++ rest)) ∨
    ∃ stop, rest.foldlM Merging.step m = .error stop ∧ Coarsens g c₀ stop.state.classes ∧
      p.Stuck (past ++ rest) := by
  induction rest generalizing m past with
  | nil => exact .inl ⟨m, rfl, by rwa [List.append_nil]⟩
  | cons e rest ih =>
    obtain ⟨he, hrest⟩ := List.forall_mem_cons.1 hrest
    rw [List.foldlM_cons]
    rw [List.append_cons]
    rcases h.step hg he with ⟨m₁, hstep, h₁⟩ | ⟨stop, hstep, hstop, es, x, q, hes, hstuck⟩
    · rw [hstep]
      exact ih h₁ hrest
    · rw [hstep]
      exact .inr ⟨stop, rfl, hstop, es, x, q, hes.trans (List.sublist_append_left _ rest), hstuck⟩

/-- Nothing is done about copies that all conflict. -/
theorem run_of_conflict (hm : m.graph.Mirrors m.classes.IsRoot (Meet g m.classes))
    (hc : m.classes.Forest)
    (hrest : ∀ e ∈ rest, Fits m.classes e ∧ Conflict g m.classes e.value e.dst) :
    ∃ m', rest.foldlM Merging.step m = .ok m' ∧ m'.program = m.program ∧ m'.classes = m.classes ∧
      m'.removed = m.removed := by
  induction rest generalizing m with
  | nil => exact ⟨m, rfl, rfl, rfl, rfl⟩
  | cons e rest ih =>
    obtain ⟨he, hrest⟩ := List.forall_mem_cons.1 hrest
    rw [List.foldlM_cons, step_of_conflict hm hc he.1 he.2]
    exact ih (m := m.tell (.kept e.dst e.value)) hm hc hrest

/-- The state before the first copy. -/
def start (p : Program) (g : Graph) (c : Partition) : Merging where
  program := p
  classes := c
  graph := MergeGraph.build g c
  events := #[.linked (MergeGraph.build g c).nodeCount (MergeGraph.build g c).linkCount]

/-- What merging leaves behind, whether it came to its end or stopped. -/
def outcome : Except (Stopped Merging) Merging → Merging
  | .ok m => m
  | .error stop => stop.state

end Merging

open Merging (outcome)

namespace Program

variable {p : Program} {g : Graph} {c : Partition} {copies : List EdgeCopy}

theorem mergeCopies_eq : p.mergeCopies copies g c =
    copies.foldlM Merging.step (Merging.start p g c) >>= fun m =>
      .ok (m.tell (.mergedAll m.removed copies.length)) := rfl

theorem progress_start (p : Program) (hg : g.Sound) (hc : c.Forest) :
    (Merging.start p g c).Progress g p c
      (.linked (MergeGraph.build g c).nodeCount (MergeGraph.build g c).linkCount) [] :=
  ⟨⟨rfl, rfl, fun _ he => absurd he List.not_mem_nil⟩, .refl hc, MergeGraph.mirrors_build hg hc,
    rfl⟩

theorem mergeCopies_cases (hg : g.Sound) (hc : c.Forest)
    (hcopies : ∀ e ∈ copies, Merging.Fits c e) :
    (∃ m : Merging, p.mergeCopies copies g c =
        .ok (m.tell (.mergedAll m.removed copies.length)) ∧
      m.Progress g p c (.linked (MergeGraph.build g c).nodeCount (MergeGraph.build g c).linkCount)
        copies) ∨
    ∃ stop, p.mergeCopies copies g c = .error stop ∧ Coarsens g c stop.state.classes ∧
      p.Stuck copies := by
  rw [mergeCopies_eq]
  rcases (progress_start p hg hc).run hg hcopies with ⟨m, hrun, hm⟩ | ⟨stop, hrun, hstop⟩
  · rw [hrun]
    exact .inl ⟨m, rfl, hm⟩
  · rw [hrun]
    exact .inr ⟨stop, rfl, hstop⟩

/-- To try copies between classes that conflict changes nothing. -/
theorem mergeCopies_of_conflict (hg : g.Sound) (hc : c.Forest)
    (hcopies : ∀ e ∈ copies, Merging.Fits c e ∧ Conflict g c e.value e.dst) :
    ∃ m, p.mergeCopies copies g c = .ok m ∧ m.removed = 0 ∧ m.program = p ∧ m.classes = c := by
  obtain ⟨m, hrun, hprogram, hclasses, hremoved⟩ := Merging.run_of_conflict
    (m := Merging.start p g c) (MergeGraph.mirrors_build hg hc) hc hcopies
  rw [mergeCopies_eq, hrun]
  exact ⟨_, rfl, hremoved, hprogram, hclasses⟩

/-- **Merging is sound, and once is enough.**  Classes are joined, and classes with adjacent members
stay apart, also if merging stops half-way.  If it does not stop, the copies taken out are those
within a class, every copy that stays is between classes that conflict, and to try the copies that
stay once more, in these classes, changes nothing. -/
theorem mergeCopies_maximal (p : Program) (g : Graph) (hg : g.Reached) (c : Partition)
    (hc : c.Reached) (copies : List EdgeCopy)
    (hcopies : ∀ e ∈ copies, e.value < c.size ∧ e.dst < c.size) :
    Coarsens g c (outcome (p.mergeCopies copies g c)).classes ∧
    (Independent g c → Independent g (outcome (p.mergeCopies copies g c)).classes) ∧
    ∀ m, p.mergeCopies copies g c = .ok m → m.Settles g p copies ∧
      m.events.toList =
        .linked (MergeGraph.build g c).nodeCount (MergeGraph.build g c).linkCount ::
          copies.map (·.verdict m.classes) ++ [.mergedAll m.removed copies.length] ∧
      ∃ m', m.program.mergeCopies (copies.filter (!·.joined m.classes)) g m.classes = .ok m' ∧
        m'.removed = 0 ∧ m'.program = m.program ∧ m'.classes = m.classes := by
  have hs := hg.sound
  rcases mergeCopies_cases (p := p) hs hc.forest hcopies with ⟨m, hrun, hm⟩ | ⟨stop, hrun, hstop, -⟩
  · rw [hrun]
    refine ⟨hm.coarsens, hm.coarsens.independent, fun m' hm' => ?_⟩
    cases hm'
    refine ⟨⟨hm.program, hm.removed, hm.kept⟩, ?_, ?_⟩
    · show (m.events.push _).toList = _
      rw [Array.toList_push, hm.told]
      rfl
    · refine mergeCopies_of_conflict hs hm.coarsens.forest fun e he => ?_
      obtain ⟨he, hkept⟩ := List.mem_filter.1 he
      refine ⟨?_, hm.kept e he (Bool.not_eq_true' _ ▸ hkept)⟩
      show e.value < m.classes.size ∧ e.dst < m.classes.size
      rw [hm.coarsens.size]
      exact hcopies e he
  · rw [hrun]
    exact ⟨hstop, hstop.independent, fun m hm => nomatch hm⟩

/-- Three copies, the last one back to where the first one came from. -/
def roundabout : Program where
  vars := #[{ id := 0 }, { id := 1 }, { id := 2 }, { id := 3 }, { id := 4 }, { id := 5 }]
  blocks := #[
    { label := 0, body := [.copy 1 0, .copy 2 1, .copy 0 1, .jump 1] },
    { label := 1, phis := [⟨3, [⟨0, 1⟩]⟩, ⟨4, [⟨0, 2⟩]⟩, ⟨5, [⟨0, 0⟩]⟩], body := [.ret none] }]

def roundaboutCopies : List EdgeCopy :=
  [⟨⟨1, 0, 0⟩, 0, 1, 0, 0⟩, ⟨⟨1, 1, 0⟩, 1, 2, 0, 1⟩, ⟨⟨1, 2, 0⟩, 1, 0, 0, 2⟩]

/-- The second copy is between variables that are not adjacent.  It stays because of the first. -/
theorem mergeCopies_roundabout : ∃ m, roundabout.mergeCopies roundaboutCopies
    ((Graph.empty 6).addEdge 0 2) (Partition.discrete 6) = .ok m ∧ m.removed = 2 :=
  ⟨_, rfl, rfl⟩

theorem mergeCopies_maximal_roundabout :
    ((Graph.empty 6).addEdge 0 2).Reached ∧ (Partition.discrete 6).Reached ∧
    (∀ e ∈ roundaboutCopies,
      e.value < (Partition.discrete 6).size ∧ e.dst < (Partition.discrete 6).size) ∧
    ∃ m, roundabout.mergeCopies roundaboutCopies ((Graph.empty 6).addEdge 0 2)
        (Partition.discrete 6) = .ok m ∧ m.removed = 2 ∧
      Coarsens ((Graph.empty 6).addEdge 0 2) (Partition.discrete 6) m.classes ∧
      m.Settles ((Graph.empty 6).addEdge 0 2) roundabout roundaboutCopies ∧
      ∃ m', m.program.mergeCopies (roundaboutCopies.filter (!·.joined m.classes))
          ((Graph.empty 6).addEdge 0 2) m.classes = .ok m' ∧
        m'.removed = 0 ∧ m'.program = m.program ∧ m'.classes = m.classes := by
  have hg : ((Graph.empty 6).addEdge 0 2).Reached := .addEdge 0 2 (.empty 6)
  have hc : (Partition.discrete 6).Reached := .discrete 6
  have hcopies : ∀ e ∈ roundaboutCopies,
      e.value < (Partition.discrete 6).size ∧ e.dst < (Partition.discrete 6).size := by decide
  obtain ⟨m, hm, hremoved⟩ := mergeCopies_roundabout
  obtain ⟨hcoarsens, -, hok⟩ := mergeCopies_maximal roundabout _ hg _ hc _ hcopies
  obtain ⟨hsettles, -, hagain⟩ := hok m hm
  rw [hm] at hcoarsens
  exact ⟨hg, hc, hcopies, m, hm, hremoved, hcoarsens, hsettles, hagain⟩

end Program

end ChordalAlloc
