/-
ChordalAlloc/Proofs/ClassGraph.lean

The graph of classes is exact.

A faithful account of which classes interfere (`MergeGraph.Tracks`) may hold
too much.  `MergeGraph.Mirrors` rules this out: the classes are all there and
nothing else has a node, a node lists no links but its own, and a link stands
for two classes between which the relation holds.  Then the neighbours of a
node can be read off the relation (`Mirrors.mem_neighbors`).

Links are handed over in place when classes become one, so that there may be
several links between two nodes, and loops.  Still the graph stays as exact
as one built anew from the classes, whatever classes are joined in whatever
order (`MergeGraph.merges_depicts`).
-/
import ChordalAlloc.Proofs.MergeGraph
import ChordalAlloc.Proofs.Partition

namespace ChordalAlloc

namespace MergeGraph

/-- An exact account of the relation `E` between the classes whose names are in `R`. -/
structure Mirrors (m : MergeGraph) (R : Nat → Prop) (E : Nat → Nat → Prop) : Prop extends
    m.Tracks E where
  named : ∀ r, R r ↔ ∃ a, (r, a) ∈ m.nodes
  owned : ∀ a e : Nat, e ∈ m.listed a → ∃ l : Link, m.links[e]? = some l ∧ (l.fst = a ∨ l.snd = a)
  backed : ∀ (e : Nat) (l : Link), m.links[e]? = some l →
    ∃ r s, (r, l.fst) ∈ m.nodes ∧ (s, l.snd) ∈ m.nodes ∧ E r s

variable {m : MergeGraph} {R R' : Nat → Prop} {E E' : Nat → Nat → Prop} {r s a b : Nat}

theorem Mirrors.congr (h : m.Mirrors R E) (hR : ∀ r, R r ↔ R' r) (hE : ∀ r s, E r s ↔ E' r s) :
    m.Mirrors R' E' where
  toTracks := h.toTracks.mono fun r s => (hE r s).2
  named r := (hR r).symm.trans (h.named r)
  owned := h.owned
  backed e l he := by
    obtain ⟨r, s, hr, hs, hrs⟩ := h.backed e l he
    exact ⟨r, s, hr, hs, (hE r s).1 hrs⟩

/-! ### Reading the graph -/

theorem interferes_iff : m.interferes a b = true ↔ b ∈ m.neighbors a := by
  rw [interferes, neighbors, List.mem_eraseDups, List.any_eq_true, List.mem_map]
  simp only [beq_iff_eq]

/-- The neighbours of a node are the nodes of the other classes that the relation holds with. -/
theorem Mirrors.mem_neighbors (h : m.Mirrors R E) (hE : ∀ r s, E r s → E s r)
    (ha : (r, a) ∈ m.nodes) :
    b ∈ m.neighbors a ↔ ∃ s, s ≠ r ∧ (s, b) ∈ m.nodes ∧ E r s := by
  constructor
  · intro hb
    rw [neighbors, List.mem_eraseDups, List.mem_map] at hb
    obtain ⟨l, hl, rfl⟩ := hb
    obtain ⟨hl, hloop⟩ := List.mem_filter.1 hl
    obtain ⟨e, he, hle⟩ := List.mem_filterMap.1 hl
    obtain ⟨l', hl', hend⟩ := h.owned a e he
    cases hle.symm.trans hl'
    obtain ⟨x, y, hx, hy, hxy⟩ := h.backed e l hle
    have hne : l.fst ≠ l.snd := by simpa [Link.isLoop] using hloop
    -- one end is the node itself, and the other one is what we look for
    rcases hend with rfl | rfl
    · rw [Link.other, if_pos rfl]
      obtain rfl := h.distinct x r l.fst hx ha
      refine ⟨y, fun heq => ?_, hy, hxy⟩
      exact hne (h.functional x _ _ hx (heq ▸ hy))
    · rw [Link.other, if_neg hne]
      obtain rfl := h.distinct y r l.snd hy ha
      refine ⟨x, fun heq => ?_, hx, hE x y hxy⟩
      exact hne (h.functional y _ _ (heq ▸ hx) hy)
  · rintro ⟨s, hne, hb, hrs⟩
    exact interferes_iff.1 (h.interferes hrs hne.symm ha hb)

/-! ### Building -/

theorem mirrors_empty : ({} : MergeGraph).Mirrors (fun _ => False) fun _ _ => False where
  functional _ _ _ h := absurd h List.not_mem_nil
  distinct _ _ _ h := absurd h List.not_mem_nil
  bound _ _ h := absurd h List.not_mem_nil
  ends e l he := by simp at he
  linked _ _ _ _ h := h.elim
  named r := by simp
  owned a e he := by simp [MergeGraph.listed] at he
  backed e l he := by simp at he

theorem Mirrors.addClass (h : m.Mirrors R fun _ _ => False) (r : Nat) :
    (m.addClass r).Mirrors (fun x => R x ∨ x = r) fun _ _ => False where
  toTracks := h.toTracks.addClass (fun _ _ => id) r
  named x := by
    rw [h.named]
    rcases hr : m.nodeOf? r with - | a
    · have hnodes : (m.addClass r).nodes = (r, m.nodeCount) :: m.nodes := by
        unfold MergeGraph.addClass
        rw [hr]
        rfl
      simp only [hnodes, List.mem_cons, Prod.mk.injEq]
      constructor
      · rintro (⟨a, ha⟩ | rfl)
        · exact ⟨a, .inr ha⟩
        · exact ⟨_, .inl ⟨rfl, rfl⟩⟩
      · rintro ⟨a, ⟨rfl, -⟩ | ha⟩
        · exact .inr rfl
        · exact .inl ⟨a, ha⟩
    · have hsame : m.addClass r = m := if_pos (by rw [hr]; rfl)
      rw [hsame, or_iff_left_iff_imp]
      rintro rfl
      exact ⟨a, mem_of_nodeOf? hr⟩
  owned a e he := by
    rw [listed_addClass] at he
    rw [links_addClass]
    exact h.owned a e he
  backed e l he := by
    rw [links_addClass] at he
    obtain ⟨-, -, -, -, hfalse⟩ := h.backed e l he
    exact hfalse.elim

/-- Linking the nodes of two classes accounts for this pair and for no other. -/
theorem Mirrors.addLink (h : m.Mirrors R E) (ha : (r, a) ∈ m.nodes) (hb : (s, b) ∈ m.nodes) :
    (m.addLink a b).Mirrors R fun x y => E x y ∨ x = r ∧ y = s ∨ x = s ∧ y = r where
  toTracks := h.toTracks.addLink ha hb
  named x := by
    rw [nodes_addLink]
    exact h.named x
  owned x e he := by
    rcases hab : m.linked a b with - | -
    · have hlinks : (m.addLink a b).links = m.links.push ⟨a, b⟩ := links_addLink hab
      rw [mem_listed_addLink hab (h.bound r a ha) (h.bound s b hb)] at he
      rw [hlinks, Array.getElem?_push]
      rcases he with he | ⟨hx, rfl⟩
      · obtain ⟨l, hl, hend⟩ := h.owned x e he
        rw [if_neg (Nat.ne_of_lt (Array.getElem?_eq_some_iff.1 hl).1)]
        exact ⟨l, hl, hend⟩
      · rw [if_pos rfl]
        exact ⟨_, rfl, hx.imp Eq.symm Eq.symm⟩
    · have hsame : m.addLink a b = m := if_pos hab
      rw [hsame] at he ⊢
      exact h.owned x e he
  backed e l he := by
    rw [nodes_addLink]
    rcases hab : m.linked a b with - | -
    · rw [links_addLink hab, Array.getElem?_push] at he
      split at he
      · cases he
        exact ⟨r, s, ha, hb, .inr (.inl ⟨rfl, rfl⟩)⟩
      · obtain ⟨x, y, hx, hy, hxy⟩ := h.backed e l he
        exact ⟨x, y, hx, hy, .inl hxy⟩
    · have hsame : m.addLink a b = m := if_pos hab
      rw [hsame] at he
      obtain ⟨x, y, hx, hy, hxy⟩ := h.backed e l he
      exact ⟨x, y, hx, hy, .inl hxy⟩

/-- Members of the two classes are adjacent. -/
def Meet (g : Graph) (c : Partition) (x y : Nat) : Prop :=
  ∃ u v, u < c.size ∧ v < c.size ∧ g.adjacent u v = true ∧ c.root u = x ∧ c.root v = y

theorem Mirrors.addClash {c : Partition} (hc : c.Forest) (h : m.Mirrors c.IsRoot E) (u v : Nat) :
    (addClash c m u v).Mirrors c.IsRoot fun x y => E x y ∨ (u < c.size ∧ v < c.size) ∧
      (x = c.root u ∧ y = c.root v ∨ x = c.root v ∧ y = c.root u) := by
  unfold MergeGraph.addClash
  split
  · next hlt =>
    simp only [Bool.and_eq_true, decide_eq_true_eq] at hlt
    obtain ⟨a, ha⟩ := (h.named _).1 (Partition.isRoot_root hc hlt.1)
    obtain ⟨b, hb⟩ := (h.named _).1 (Partition.isRoot_root hc hlt.2)
    rw [h.nodeOf?_eq ha, h.nodeOf?_eq hb]
    refine (h.addLink ha hb).congr (fun _ => Iff.rfl) fun x y => or_congr_right ?_
    exact (and_iff_right hlt).symm
  · next hlt =>
    simp only [Bool.and_eq_true, decide_eq_true_eq] at hlt
    exact h.congr (fun _ => Iff.rfl) fun x y => (or_iff_left fun hxy => hlt hxy.1).symm

/-- **The graph that is built is exact.**  It has a node for every class, and it links the classes
of which members are adjacent. -/
theorem mirrors_build {g : Graph} {c : Partition} (hg : g.Sound) (hc : c.Forest) :
    (build g c).Mirrors c.IsRoot (Meet g c) := by
  have hnodes : ∀ (vs : List Nat) (m : MergeGraph) (R : Nat → Prop),
      (m.Mirrors R fun _ _ => False) →
      (vs.foldl (fun m v => m.addClass (c.root v)) m).Mirrors
        (fun x => R x ∨ ∃ v ∈ vs, x = c.root v) fun _ _ => False := by
    intro vs
    induction vs with
    | nil => exact fun m R h => h.congr (fun x => by simp) fun _ _ => Iff.rfl
    | cons v vs ih =>
      intro m R h
      refine (ih _ _ (h.addClass (c.root v))).congr (fun x => ?_) fun _ _ => Iff.rfl
      rw [List.exists_mem_cons_iff, or_assoc]
  have hedges : ∀ (es : List (Nat × Nat)) (m : MergeGraph) (E : Nat → Nat → Prop),
      m.Mirrors c.IsRoot E →
      (es.foldl (fun m e => MergeGraph.addClash c m e.1 e.2) m).Mirrors c.IsRoot fun x y =>
        E x y ∨ ∃ e ∈ es, (e.1 < c.size ∧ e.2 < c.size) ∧
          (x = c.root e.1 ∧ y = c.root e.2 ∨ x = c.root e.2 ∧ y = c.root e.1) := by
    intro es
    induction es with
    | nil => exact fun m E h => h.congr (fun _ => Iff.rfl) fun x y => by simp
    | cons e es ih =>
      intro m E h
      refine (ih _ _ (h.addClash hc e.1 e.2)).congr (fun _ => Iff.rfl) fun x y => ?_
      rw [List.exists_mem_cons_iff, or_assoc]
  have hroots : ∀ x, (False ∨ ∃ v ∈ List.range c.size, x = c.root v) ↔ c.IsRoot x := by
    intro x
    rw [false_or]
    constructor
    · rintro ⟨v, hv, rfl⟩
      exact Partition.isRoot_root hc (List.mem_range.1 hv)
    · rintro ⟨hlt, hx⟩
      exact ⟨x, List.mem_range.2 hlt, hx.symm⟩
  refine (hedges g.edges _ _ ((hnodes (List.range c.size) _ _ mirrors_empty).congr hroots
    fun _ _ => Iff.rfl)).congr (fun _ => Iff.rfl) fun x y => ?_
  rw [false_or]
  constructor
  · rintro ⟨⟨u, v⟩, he, ⟨hu, hv⟩, ⟨rfl, rfl⟩ | ⟨rfl, rfl⟩⟩
    · exact ⟨u, v, hu, hv, (Graph.mem_edges.1 he).1, rfl, rfl⟩
    · exact ⟨v, u, hv, hu, hg.symm u v (Graph.mem_edges.1 he).1, rfl, rfl⟩
  · -- an edge is listed from its lower end to its higher one
    rintro ⟨u, v, hu, hv, hadj, rfl, rfl⟩
    rcases Nat.lt_or_gt_of_ne (hg.ne hadj) with hlt | hgt
    · exact ⟨(u, v), Graph.mem_edges.2 ⟨hadj, hlt⟩, ⟨hu, hv⟩, .inl ⟨rfl, rfl⟩⟩
    · exact ⟨(v, u), Graph.mem_edges.2 ⟨hg.symm u v hadj, hgt⟩, ⟨hv, hu⟩, .inr ⟨rfl, rfl⟩⟩

/-! ### Merging -/

/-- A node of a class goes with its class. -/
theorem Tracks.mem_nodes_merge_of (h : m.Tracks E) (hb : (r, b) ∈ m.nodes) (ha : (s, a) ∈ m.nodes)
    {x d : Nat} (hx : (x, d) ∈ m.nodes) :
    (if x = s then r else x, if d = a then b else d) ∈ (m.merge b a r).nodes := by
  rw [mem_nodes_merge]
  by_cases hxs : x = s
  · subst hxs
    cases h.functional x d a hx ha
    exact .inl ⟨if_pos rfl, if_pos rfl⟩
  · have hda : d ≠ a := by
      rintro rfl
      exact hxs (h.distinct x s d hx ha)
    rw [if_neg hxs, if_neg hda]
    by_cases hxr : x = r
    · subst hxr
      exact .inl ⟨rfl, h.functional x d b hx hb⟩
    · exact .inr ⟨hx, hda, hxr⟩

/-- Merging the nodes of two classes leaves an exact account of the two classes as one. -/
theorem Mirrors.merge (h : m.Mirrors R E) (hb : (r, b) ∈ m.nodes) (ha : (s, a) ∈ m.nodes)
    (hrs : r ≠ s) : (m.merge b a r).Mirrors (fun x => R x ∧ x ≠ s) fun x y => ∃ x₀ y₀, E x₀ y₀ ∧
      (if x₀ = s then r else x₀) = x ∧ (if y₀ = s then r else y₀) = y := by
  have hab : a ≠ b := by
    rintro rfl
    exact hrs (h.distinct r s a hb ha)
  refine ⟨h.toTracks.merge hb ha hrs, fun x => ?_, fun x e he => ?_, fun e l he => ?_⟩
  · rw [h.named]
    simp only [mem_nodes_merge]
    constructor
    · rintro ⟨⟨c, hc⟩, hxs⟩
      by_cases hxr : x = r
      · exact ⟨b, .inl ⟨hxr, rfl⟩⟩
      · refine ⟨c, .inr ⟨hc, ?_, hxr⟩⟩
        rintro rfl
        exact hxs (h.distinct x s c hc ha)
    · rintro ⟨c, ⟨rfl, rfl⟩ | ⟨hc, hca, -⟩⟩
      · exact ⟨⟨c, hb⟩, hrs⟩
      · refine ⟨⟨c, hc⟩, ?_⟩
        rintro rfl
        exact hca (h.functional x c a hc ha)
  · rw [mem_listed_merge_iff hab (h.bound r b hb)] at he
    rw [h.links_merge hab]
    obtain ⟨hxa, he | ⟨rfl, he⟩⟩ := he
    · obtain ⟨l, hl, hend⟩ := h.owned x e he
      refine ⟨l.rename a b, by rw [hl]; rfl, hend.imp ?_ ?_⟩ <;>
      · rintro rfl
        exact if_neg hxa
    · obtain ⟨l, hl, hend⟩ := h.owned a e he
      refine ⟨l.rename a x, by rw [hl]; rfl, hend.imp ?_ ?_⟩ <;>
      · rintro rfl
        exact if_pos rfl
  · rw [h.links_merge hab, Option.map_eq_some_iff] at he
    obtain ⟨l, hl, rfl⟩ := he
    obtain ⟨x, y, hx, hy, hxy⟩ := h.backed e l hl
    exact ⟨_, _, h.mem_nodes_merge_of hb ha hx, h.mem_nodes_merge_of hb ha hy,
      x, y, hxy, rfl, rfl⟩

/-! ### Joining classes -/

section Joining

variable {g : Graph} {c c' : Partition}

theorem Meet.symm {x y : Nat} (h : Meet g c x y) (hg : g.Sound) : Meet g c y x := by
  obtain ⟨u, v, hu, hv, hadj, hx, hy⟩ := h
  exact ⟨v, u, hv, hu, hg.symm u v hadj, hy, hx⟩

/-- The account follows when the class `r` takes the class `s` in. -/
theorem Mirrors.join (h : m.Mirrors c.IsRoot (Meet g c)) (hj : c.Joined c' r s r)
    (ha : (r, a) ∈ m.nodes) (hb : (s, b) ∈ m.nodes) (hrs : r ≠ s) :
    (m.merge a b r).Mirrors c'.IsRoot (Meet g c') := by
  have hr := (h.named r).2 ⟨a, ha⟩
  have hs := (h.named s).2 ⟨b, hb⟩
  refine (h.merge ha hb hrs).congr (fun x => (hj.isRoot_iff hr.2 hs.2 hrs x).symm) fun x y => ?_
  unfold Meet
  rw [hj.size]
  constructor
  · rintro ⟨-, -, ⟨u, v, hu, hv, hadj, rfl, rfl⟩, rfl, rfl⟩
    exact ⟨u, v, hu, hv, hadj, (hj.root_of_name u).symm, (hj.root_of_name v).symm⟩
  · rintro ⟨u, v, hu, hv, hadj, rfl, rfl⟩
    exact ⟨_, _, ⟨u, v, hu, hv, hadj, rfl, rfl⟩, hj.root_of_name u, hj.root_of_name v⟩

/-- Make the nodes `a` and `b` one, of which the first is that of the class `r`, now that the two
classes have the name `t`.  The node of the class that had this name survives. -/
def unite (m : MergeGraph) (r t a b : Nat) : MergeGraph :=
  if t = r then m.merge a b t else m.merge b a t

/-- As `unite`, for nodes that exist. -/
def unite? (m : MergeGraph) (r t a b : Nat) : Option MergeGraph :=
  if t = r then m.merge? a b t else m.merge? b a t

theorem merge?_eq {t : Nat} (ha : a < m.incident.size) (hb : b < m.incident.size) :
    m.merge? a b t = some (m.merge a b t) := by
  unfold merge?
  rw [Array.getElem?_eq_getElem hb]
  simp [nodeCount, ha]

theorem Tracks.unite?_eq (h : m.Tracks E) (ha : (r, a) ∈ m.nodes) (hb : (s, b) ∈ m.nodes)
    (t : Nat) : m.unite? r t a b = some (m.unite r t a b) := by
  unfold unite? unite
  rw [merge?_eq (h.bound r a ha) (h.bound s b hb), merge?_eq (h.bound s b hb) (h.bound r a ha)]
  split <;> rfl

/-- Joining two classes in the partition and in the graph keeps the account exact, whichever of
them keeps its name. -/
theorem Mirrors.unite (h : m.Mirrors c.IsRoot (Meet g c)) (hc : c.Forest) (ha : (r, a) ∈ m.nodes)
    (hb : (s, b) ∈ m.nodes) (hrs : r ≠ s) :
    (m.unite r (c.union r s).1 a b).Mirrors (c.union r s).2.IsRoot (Meet g (c.union r s).2) := by
  obtain ⟨hltr, hr⟩ := (h.named r).2 ⟨a, ha⟩
  obtain ⟨hlts, hs⟩ := (h.named s).2 ⟨b, hb⟩
  have hj := hc.joined_union hltr hlts
  rw [hr, hs] at hj
  unfold MergeGraph.unite
  generalize c.union r s = joined at hj ⊢
  rcases hj.name with hname | hname
  · rw [if_pos hname, hname]
    exact h.join (hname ▸ hj) ha hb hrs
  · rw [if_neg (hname ▸ Ne.symm hrs), hname]
    exact h.join (hname ▸ hj.symm) hb ha (Ne.symm hrs)

theorem linkCount_merge {t : Nat} : (m.merge a b t).linkCount = m.linkCount := by
  have hfold : ∀ (moved : List Nat) (ls : Array Link),
      (moved.foldl (fun ls e => ls.modify e (·.rename b a)) ls).size = ls.size := by
    intro moved
    induction moved with
    | nil => exact fun ls => rfl
    | cons e moved ih => exact fun ls => (ih _).trans Array.size_modify
  unfold MergeGraph.merge
  split
  · rfl
  · exact hfold _ _

theorem counts_unite {t : Nat} : (m.unite r t a b).nodeCount = m.nodeCount ∧
    (m.unite r t a b).linkCount = m.linkCount := by
  unfold MergeGraph.unite
  split
  · exact ⟨size_merge, linkCount_merge⟩
  · exact ⟨size_merge, linkCount_merge⟩

end Joining

/-! ### Any number of joins -/

/-- What the graph and the partition come to when two classes are joined again and again, in both
of them.  In between, classes may be looked up, which shortens paths in the partition. -/
inductive Merges (g : Graph) (c₀ : Partition) : MergeGraph → Partition → Prop
  | build : Merges g c₀ (build g c₀) c₀
  | find {m : MergeGraph} {c : Partition} {i : Nat} : Merges g c₀ m c → i < c.size →
    Merges g c₀ m (c.find i).2
  | union {m m' : MergeGraph} {c : Partition} {i j a b : Nat} : Merges g c₀ m c →
    i < c.size → j < c.size → c.root i ≠ c.root j →
    m.nodeOf? (c.root i) = some a → m.nodeOf? (c.root j) = some b →
    m.unite? (c.root i) (c.union (c.root i) (c.root j)).1 a b = some m' →
    Merges g c₀ m' (c.union (c.root i) (c.root j)).2

/-- The graph shows which classes have adjacent members: exactly the classes have nodes, no two of
them the same, and a node has as neighbours, each once, the nodes of the classes that meet its
own. -/
structure Depicts (m : MergeGraph) (g : Graph) (c : Partition) : Prop where
  node : ∀ r, (∃ a, m.nodeOf? r = some a) ↔ c.IsRoot r
  distinct : ∀ r s a, m.nodeOf? r = some a → m.nodeOf? s = some a → r = s
  interferes : ∀ r s a b, r ≠ s → m.nodeOf? r = some a → m.nodeOf? s = some b →
    (m.interferes a b = true ↔ Meet g c r s)
  nodup : ∀ a, (m.neighbors a).Nodup
  neighbors : ∀ r a, m.nodeOf? r = some a → ∀ b,
    b ∈ m.neighbors a ↔ ∃ s, s ≠ r ∧ m.nodeOf? s = some b ∧ Meet g c r s

section Merges

variable {g : Graph} {c₀ c : Partition}

theorem Tracks.nodeOf?_iff (h : m.Tracks E) : m.nodeOf? r = some a ↔ (r, a) ∈ m.nodes :=
  ⟨mem_of_nodeOf?, h.nodeOf?_eq⟩

theorem Mirrors.depicts (h : m.Mirrors c.IsRoot (Meet g c)) (hg : g.Sound) : m.Depicts g c := by
  have hneighbors : ∀ r a, m.nodeOf? r = some a → ∀ b,
      b ∈ m.neighbors a ↔ ∃ s, s ≠ r ∧ m.nodeOf? s = some b ∧ Meet g c r s := by
    intro r a ha b
    simp only [h.nodeOf?_iff] at ha ⊢
    exact h.mem_neighbors (fun _ _ hrs => hrs.symm hg) ha
  refine ⟨fun r => ?_, fun r s a hr hs => ?_, fun r s a b hrs ha hb => ?_,
    fun a => nodup_eraseDups _, hneighbors⟩
  · simp only [h.nodeOf?_iff]
    exact (h.named r).symm
  · exact h.distinct r s a (mem_of_nodeOf? hr) (mem_of_nodeOf? hs)
  · rw [interferes_iff, hneighbors r a ha]
    constructor
    · rintro ⟨x, -, hx, hmeet⟩
      rwa [h.distinct s x b (mem_of_nodeOf? hb) (mem_of_nodeOf? hx)]
    · exact fun hmeet => ⟨s, hrs.symm, hb, hmeet⟩

/-- Shortening a path changes no class. -/
theorem Mirrors.find (h : m.Mirrors c.IsRoot (Meet g c)) (hc : c.Forest) (i : Nat) :
    m.Mirrors (c.find i).2.IsRoot (Meet g (c.find i).2) := by
  obtain ⟨-, hroot, hsize⟩ := Partition.find_spec hc i
  refine h.congr (fun r => ?_) fun x y => ?_
  · unfold Partition.IsRoot
    rw [hroot, hsize]
  · unfold Meet
    simp only [hroot, hsize]

theorem Merges.mirrors (h : Merges g c₀ m c) (hg : g.Sound) (hc₀ : c₀.Forest) :
    c.Forest ∧ m.Mirrors c.IsRoot (Meet g c) ∧ m.nodeCount = (MergeGraph.build g c₀).nodeCount ∧
      m.linkCount = (MergeGraph.build g c₀).linkCount := by
  induction h with
  | build => exact ⟨hc₀, mirrors_build hg hc₀, rfl, rfl⟩
  | find _ hi ih =>
    obtain ⟨hc, hm, hcounts⟩ := ih
    exact ⟨(Partition.find_spec hc _).1, hm.find hc _, hcounts⟩
  | union _ hi hj hne ha hb hunite ih =>
    obtain ⟨hc, hm, hnodes, hlinks⟩ := ih
    have ha := mem_of_nodeOf? ha
    have hb := mem_of_nodeOf? hb
    rw [hm.unite?_eq ha hb, Option.some.injEq] at hunite
    subst hunite
    obtain ⟨hnodes', hlinks'⟩ := counts_unite
    exact ⟨(Partition.union_spec hc (Partition.root_lt hc hi) (Partition.root_lt hc hj)).1,
      hm.unite hc ha hb hne, hnodes'.trans hnodes, hlinks'.trans hlinks⟩

end Merges

/-- **Merging in place is as good as building anew.**  However many classes have been joined, in
whatever order and whether they interfered or not, the graph shows which classes there are now and
which of them have adjacent members, just as a graph does that is built anew from these classes.  It
has the nodes and links it began with, and any two classes can be joined next. -/
theorem merges_depicts (g : Graph) (hg : g.Reached) (c₀ : Partition) (hc₀ : c₀.Reached)
    (m : MergeGraph) (c : Partition) (h : Merges g c₀ m c) :
    m.Depicts g c ∧ (build g c).Depicts g c ∧ m.nodeCount = (build g c₀).nodeCount ∧
    m.linkCount = (build g c₀).linkCount ∧
    ∀ i j, i < c.size → j < c.size → c.root i ≠ c.root j →
      ∃ a b m', m.nodeOf? (c.root i) = some a ∧ m.nodeOf? (c.root j) = some b ∧
        m.unite? (c.root i) (c.union (c.root i) (c.root j)).1 a b = some m' := by
  have hs := hg.sound
  obtain ⟨hc, hm, hnodes, hlinks⟩ := h.mirrors hs hc₀.forest
  refine ⟨hm.depicts hs, (mirrors_build hs hc).depicts hs, hnodes, hlinks, fun i j hi hj _ => ?_⟩
  obtain ⟨a, ha⟩ := (hm.named _).1 (Partition.isRoot_root hc hi)
  obtain ⟨b, hb⟩ := (hm.named _).1 (Partition.isRoot_root hc hj)
  exact ⟨a, b, _, hm.nodeOf?_eq ha, hm.nodeOf?_eq hb, hm.unite?_eq ha hb _⟩

/-- A path of five nodes. -/
def path : Graph := (Graph.empty 5).addEdges [(0, 1), (1, 2), (2, 3), (3, 4)]

/-- The two neighbours of node 1 of the path in one class, and all other nodes alone. -/
def pathClasses : Partition := ((Partition.discrete 5).union 0 2).2

/-- Joining 1 with 3 makes two links between the same classes, and joining these makes loops. -/
theorem merges_path : ∃ m c, Merges path pathClasses m c ∧ c.root 0 = c.root 3 ∧
    c.root 0 ≠ c.root 4 := by
  have h := Merges.union (i := 1) (j := 3) (a := 1) (b := 2)
    (Merges.build : Merges path pathClasses _ _) (by decide +kernel) (by decide +kernel)
    (by decide +kernel) (by decide +kernel) (by decide +kernel) rfl
  have h' := Merges.union (i := 0) (j := 1) (a := 0) (b := 1) h (by decide +kernel)
    (by decide +kernel) (by decide +kernel) (by decide +kernel) (by decide +kernel) rfl
  exact ⟨_, _, h', by decide +kernel, by decide +kernel⟩

theorem merges_depicts_path :
    path.Reached ∧ pathClasses.Reached ∧ ∃ m c, Merges path pathClasses m c ∧
      c.root 0 = c.root 3 ∧ c.root 0 ≠ c.root 4 ∧
      m.Depicts path c ∧ (build path c).Depicts path c ∧
      m.nodeCount = (build path pathClasses).nodeCount ∧
      m.linkCount = (build path pathClasses).linkCount ∧
      ∀ i j, i < c.size → j < c.size → c.root i ≠ c.root j →
        ∃ a b m', m.nodeOf? (c.root i) = some a ∧ m.nodeOf? (c.root j) = some b ∧
          m.unite? (c.root i) (c.union (c.root i) (c.root j)).1 a b = some m' := by
  have hg : path.Reached := (Graph.Reached.empty 5).addEdges _
  have hc : pathClasses.Reached := .union (.discrete 5) (by decide) (by decide)
  obtain ⟨m, c, h, hjoined, hapart⟩ := merges_path
  exact ⟨hg, hc, m, c, h, hjoined, hapart, merges_depicts path hg pathClasses hc m c h⟩

end MergeGraph

end ChordalAlloc
