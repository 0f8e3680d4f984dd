/-
ChordalAlloc/Proofs/Optimality.lean

If the graph of classes is chordal and the classes with a color beforehand
form a clique, coloring takes as few colors as can be: one for each class of
a largest clique.

It never takes fewer, since the classes of a clique all differ.  It takes no
more because of the order in which the classes get their colors.  The
neighbours that a class has among those before it form a clique, as the order
is that of a maximum cardinality search.  The least color they leave is at
most their number, and so below the size of the clique that they form with
the class itself (`Graph.Thrifty`).
-/
import Mathlib.Order.Bounds.Basic
import ChordalAlloc.Proofs.Colorability
import ChordalAlloc.Proofs.Elimination

namespace ChordalAlloc

/-- Nodes below `size` that are all joined to each other. -/
structure IsClique (adj : Nat → Nat → Prop) (size : Nat) (s : Finset Nat) : Prop where
  lt : ∀ a ∈ s, a < size
  joined : ∀ a ∈ s, ∀ b ∈ s, a ≠ b → adj a b

theorem IsClique.insert {adj : Nat → Nat → Prop} {size k : Nat} {s : Finset Nat}
    (h : IsClique adj size s) (hk : k < size) (hfrom : ∀ a ∈ s, adj k a)
    (hto : ∀ a ∈ s, adj a k) : IsClique adj size (insert k s) where
  lt := Finset.forall_mem_insert _ _ _ |>.2 ⟨hk, h.lt⟩
  joined a ha b hb hab := by
    rcases Finset.mem_insert.1 ha with rfl | has <;> rcases Finset.mem_insert.1 hb with rfl | hbs
    · exact absurd rfl hab
    · exact hfrom b hbs
    · exact hto a has
    · exact h.joined a has b hbs hab

theorem IsClique.card_le {adj : Nat → Nat → Prop} {size : Nat} {s : Finset Nat}
    (h : IsClique adj size s) : s.card ≤ size := by
  have hsub : s ⊆ Finset.range size := fun a ha => Finset.mem_range.2 (h.lt a ha)
  have hcard := Finset.card_le_card hsub
  rwa [Finset.card_range] at hcard

theorem leastFree_le_length (taken : List Nat) : leastFree taken ≤ taken.length := by
  unfold leastFree
  rcases hfind : (List.range taken.length).find? fun c => !taken.contains c with - | c
  · exact Nat.le_refl _
  · exact Nat.le_of_lt (List.mem_range.1 (List.mem_of_find?_eq_some hfind))

namespace Graph

variable {g : Graph} {seeds colors : Colors} {past : List Nat} {k : Nat}

/-! ### The greedy coloring -/

/-- Colors in progress: only the nodes of the past and those that had a color beforehand have one,
and every color is below the size of a clique. -/
structure Thrifty (g : Graph) (seeds : Colors) (past : List Nat) (colors : Colors) : Prop
    extends g.Colored seeds past colors where
  only : ∀ j, (colors[j]?).join.isSome = true → j ∈ past ∨ (seeds[j]?).join.isSome = true
  bound : ∀ j c : Nat, (colors[j]?).join = some c →
    ∃ s, IsClique (fun a b => g.adjacent a b = true) g.size s ∧ c < s.card

/-- The colored neighbours of a node, if they are joined to each other, make up a clique together
with it. -/
theorem exists_clique_of_takenColors (hg : g.Sound) (hk : k < g.size)
    (hclique : ∀ i j, (colors[i]?).join.isSome = true → (colors[j]?).join.isSome = true →
      g.adjacent i k = true → g.adjacent j k = true → i ≠ j → g.adjacent i j = true) :
    ∃ s, IsClique (fun a b => g.adjacent a b = true) g.size s ∧
      (g.takenColors colors k).length < s.card := by
  have hmem : ∀ {j}, j ∈ ((g.neighbors k).filter fun j => (colors[j]?).join.isSome).toFinset ↔
      g.adjacent k j = true ∧ (colors[j]?).join.isSome = true := by
    intro j
    rw [List.mem_toFinset, List.mem_filter, mem_neighbors]
  refine ⟨insert k ((g.neighbors k).filter fun j => (colors[j]?).join.isSome).toFinset, ?_, ?_⟩
  · apply IsClique.insert _ hk
    · exact fun a ha => (hmem.1 ha).1
    · exact fun a ha => hg.symm k a (hmem.1 ha).1
    · refine ⟨fun a ha => hg.lt_size (hmem.1 ha).1, fun a ha b hb hab => ?_⟩
      obtain ⟨hka, hca⟩ := hmem.1 ha
      obtain ⟨hkb, hcb⟩ := hmem.1 hb
      exact hclique a b hca hcb (hg.symm k a hka) (hg.symm k b hkb) hab
  · have hself : k ∉ ((g.neighbors k).filter fun j => (colors[j]?).join.isSome).toFinset :=
      fun h => hg.ne (hmem.1 h).1 rfl
    have hnodup : (g.neighbors k).Nodup :=
      (IndexSet.pairwise_toList _).imp fun hlt => Nat.ne_of_lt hlt
    rw [Finset.card_insert_of_notMem hself, List.toFinset_card_of_nodup (hnodup.filter _),
      takenColors, List.length_filterMap_eq_countP, List.countP_eq_length_filter]
    exact Nat.lt_succ_self _

theorem Thrifty.colorOne (hg : g.Sound) (h : g.Thrifty seeds past colors) (hk : k < g.size)
    (hclique : (colors[k]?).join = none → ∀ i j, (colors[i]?).join.isSome = true →
      (colors[j]?).join.isSome = true → g.adjacent i k = true → g.adjacent j k = true → i ≠ j →
      g.adjacent i j = true) :
    g.Thrifty seeds (past ++ [k]) (g.colorOne colors k) := by
  refine ⟨h.toColored.colorOne hg k, ?_, ?_⟩ <;> unfold Graph.colorOne <;> split
  · exact fun j hj => (h.only j hj).imp_left (List.mem_append_left [k])
  · intro j hj
    rw [join_setIfInBounds] at hj
    split at hj
    · next hkj => exact .inl (List.mem_append_right past (List.mem_singleton.2 hkj.1.symm))
    · exact (h.only j hj).imp_left (List.mem_append_left [k])
  · exact h.bound
  · next hnone =>
    intro j c hc
    rw [join_setIfInBounds] at hc
    split at hc
    · cases hc
      obtain ⟨s, hs, hlt⟩ :=
        exists_clique_of_takenColors hg hk (hclique (Option.not_isSome_iff_eq_none.1 hnone))
      exact ⟨s, hs, Nat.lt_of_le_of_lt (leastFree_le_length _) hlt⟩
    · exact h.bound j c hc

/-- Colors are bounded if in the order of the nodes the neighbours that a node finds colored are
always joined to each other. -/
theorem Thrifty.foldl (hg : g.Sound) {order : List Nat} (hlt : ∀ k ∈ order, k < g.size)
    (hclique : ∀ before k after, order = before ++ k :: after → (seeds[k]?).join = none →
      ∀ i j, i ∈ before ∨ (seeds[i]?).join.isSome = true →
        j ∈ before ∨ (seeds[j]?).join.isSome = true →
        g.adjacent i k = true → g.adjacent j k = true → i ≠ j → g.adjacent i j = true)
    {ks : List Nat} (h : g.Thrifty seeds past colors) (horder : order = past ++ ks) :
    g.Thrifty seeds order (ks.foldl g.colorOne colors) := by
  induction ks generalizing past colors with
  | nil =>
    rw [horder, List.append_nil]
    exact h
  | cons k ks ih =>
    have hk : k < g.size := hlt k (by rw [horder]; simp)
    refine ih (h.colorOne hg hk fun hnone i j hi hj => ?_) (by rw [horder]; simp)
    have hseed : (seeds[k]?).join = none := by
      rcases hs : (seeds[k]?).join with - | c
      · rfl
      · rw [h.kept k c hs] at hnone
        cases hnone
    exact hclique past k ks horder hseed i j (h.only i hi) (h.only j hj)

theorem next_toDigraph (g : Graph) (u : Nat) : g.toDigraph.next u = g.neighbors u := by
  rw [Digraph.next, toDigraph, neighbors, Array.getD_eq_getD_getElem?, Array.getElem?_map,
    Array.getD_eq_getD_getElem?]
  rcases g.rows[u]? with - | row
  · rfl
  · rfl

theorem Sound.simple_toDigraph (hg : g.Sound) : g.toDigraph.Simple where
  nodup u := by
    rw [next_toDigraph]
    exact (IndexSet.pairwise_toList _).imp fun hlt => Nat.ne_of_lt hlt
  symm u v h := by
    rw [next_toDigraph, mem_neighbors] at h ⊢
    exact hg.symm u v h

/-- **Every color is below the size of a clique**, if the graph is chordal, the nodes with a color
beforehand are joined to each other, and their colors are below the size of a clique. -/
theorem colorGreedily_bound (hg : g.Sound) (s : Seeds) (hsize : s.colors.size = g.size)
    (hchordal : Chordal fun a b => g.adjacent a b = true)
    (hfirst : ∀ k, k ∈ s.first ↔ (s.colors[k]?).join.isSome = true)
    (hjoined : ∀ a ∈ s.first, ∀ b ∈ s.first, a ≠ b → g.adjacent a b = true)
    (hbound : ∀ k c : Nat, (s.colors[k]?).join = some c →
      ∃ t, IsClique (fun a b => g.adjacent a b = true) g.size t ∧ c < t.card)
    {k c : Nat} (hc : ((g.colorGreedily s)[k]?).join = some c) :
    ∃ t, IsClique (fun a b => g.adjacent a b = true) g.size t ∧ c < t.card := by
  have hadj : (fun a b => b ∈ g.toDigraph.next a) = fun a b => g.adjacent a b = true := by
    funext a b
    rw [next_toDigraph, mem_neighbors]
  have hnodes : g.toDigraph.size = g.size := Array.size_map
  have hsearch : SearchOrder (fun a b => g.adjacent a b = true)
      (g.toDigraph.turn s.first.reverse) := by
    rw [← hadj]
    apply hg.simple_toDigraph.searchOrder
    intro a ha b hb hab
    rw [next_toDigraph, mem_neighbors]
    exact hjoined a (List.mem_reverse.1 ha) b (List.mem_reverse.1 hb) hab
  have start : g.Thrifty s.colors [] s.colors :=
    ⟨⟨hsize, fun _ _ h => h, fun _ h => absurd h List.not_mem_nil, fun _ _ _ _ hi hj => ⟨hi, hj⟩⟩,
      fun _ h => .inr h, hbound⟩
  refine (start.foldl hg (fun j hj => ?_) (fun before k after horder hnone => ?_)
    (List.nil_append _).symm).bound k c hc
  · rw [Digraph.mem_cardinalityOrder, hnodes] at hj
    exact hj
  -- nodes with a color beforehand come before all others
  have hbefore : ∀ i, i ∈ before ∨ (s.colors[i]?).join.isSome = true → i ∈ before := by
    rintro i (hi | hi)
    · exact hi
    rcases g.toDigraph.cardinalityOrder_led _ horder with hasked | ⟨hled, -⟩
    · have := (hfirst k).1 (List.mem_reverse.1 (hasked k (.inl rfl)))
      rw [hnone] at this
      cases this
    · apply hled i (List.mem_reverse.2 ((hfirst i).2 hi))
      obtain ⟨c, hc⟩ := Option.isSome_iff_exists.1 hi
      rw [hnodes, ← hsize]
      exact lt_size_of_join hc
  intro i j hi hj hik hjk hij
  exact hchordal.earlier_adjacent hg.symm hsearch hik hjk
    ((Digraph.mem_before_iff horder).1 (hbefore i hi))
    ((Digraph.mem_before_iff horder).1 (hbefore j hj)) hij

end Graph

/-! ### Classes of variables -/

/-- A member of the class comes with the color. -/
def Seeded (classes : Array Nat) (colors : Colors) (k c : Nat) : Prop :=
  ∃ v : Nat, (colors[v]?).join = some c ∧ classes[v]? = some k

/-- The classes that come with a color are joined to each other, and their colors are those below
`m`, one for each class. -/
structure Graph.CliqueSeeded (g : Graph) (classes : Array Nat) (colors : Colors) (m : Nat) :
    Prop where
  single : ∀ k a b, Seeded classes colors k a → Seeded classes colors k b → a = b
  distinct : ∀ k l c, Seeded classes colors k c → Seeded classes colors l c → k = l
  joined : ∀ k l a b, Seeded classes colors k a → Seeded classes colors l b → k ≠ l →
    g.JoinedClasses classes k l
  range : ∀ c, (∃ k, Seeded classes colors k c) ↔ c < m

variable {g : Graph} {classes : Array Nat} {colors : Colors} {plan : ColorPlan} {m count : Nat}

namespace Graph

theorem CliqueSeeded.colorable (h : g.CliqueSeeded classes colors m) (hg : g.Sound)
    (hclasses : classes.size = g.size) (hcolors : colors.size = g.size)
    (hinside : ∀ u v, g.adjacent u v = true → classes[u]? ≠ classes[v]?) :
    g.Colorable classes colors := by
  refine ⟨hinside, fun u v a b ha hb heq => ?_, fun u v u' v' c hadj hu' hv' hcu hcv => ?_⟩
  · obtain ⟨k, hk⟩ := exists_class hclasses (hcolors ▸ lt_size_of_join ha)
    exact h.single k a b ⟨u, ha, hk⟩ ⟨v, hb, heq.symm.trans hk⟩
  · -- the color belongs to one class, which would have an edge inside
    obtain ⟨k, hu⟩ := exists_class hclasses (lt_size_of_adjacent hadj)
    obtain ⟨l, hv⟩ := exists_class hclasses (hg.lt_size hadj)
    obtain rfl := h.distinct k l c ⟨u', hcu, hu'.trans hu⟩ ⟨v', hcv, hv'.trans hv⟩
    exact hinside u v hadj (hu.trans hv.symm)

/-- The classes with a color form a clique of as many classes as there are colors. -/
theorem CliqueSeeded.exists_clique (h : g.CliqueSeeded classes colors m)
    (hpacked : Packed classes count) :
    ∃ s, IsClique (g.JoinedClasses classes) count s ∧ s.card = m := by
  have hclass : ∀ c, ∃ k, c < m → Seeded classes colors k c := by
    intro c
    by_cases hc : c < m
    · obtain ⟨k, hk⟩ := (h.range c).2 hc
      exact ⟨k, fun _ => hk⟩
    · exact ⟨0, fun hlt => absurd hlt hc⟩
  choose pick hpick using hclass
  refine ⟨(Finset.range m).image pick, ⟨fun k hk => ?_, fun k hk l hl hkl => ?_⟩, ?_⟩
  · obtain ⟨c, hc, rfl⟩ := Finset.mem_image.1 hk
    obtain ⟨v, -, hv⟩ := hpick c (Finset.mem_range.1 hc)
    exact (hpacked _).1 (Array.mem_of_getElem? hv)
  · obtain ⟨a, ha, rfl⟩ := Finset.mem_image.1 hk
    obtain ⟨b, hb, rfl⟩ := Finset.mem_image.1 hl
    exact h.joined _ _ a b (hpick a (Finset.mem_range.1 ha)) (hpick b (Finset.mem_range.1 hb)) hkl
  · rw [Finset.card_image_of_injOn, Finset.card_range]
    intro a ha b hb hab
    have hka := hpick a (Finset.mem_range.1 ha)
    have hkb := hpick b (Finset.mem_range.1 hb)
    exact h.single _ a b hka (hab ▸ hkb)

end Graph

namespace ColorPlan.Suits

variable (h : plan.Suits g classes colors) (hpacked : Packed classes count)
  (hseeds : g.CliqueSeeded classes colors m)

include h

theorem joined_eq : (fun a b => plan.graph.adjacent a b = true) = g.JoinedClasses classes := by
  funext a b
  exact propext (h.joined a b)

include hpacked

theorem mem_colors {c : Nat} : c ∈ (plan.painted.toList.filterMap id).toFinset ↔
    ∃ k : Nat, k < count ∧ (plan.painted[k]?).join = some c := by
  rw [List.mem_toFinset, mem_filterMap_id]
  refine exists_congr fun k => ⟨fun hk => ⟨?_, hk⟩, And.right⟩
  rw [← hpacked.classCount_eq, ← h.size_painted]
  exact lt_size_of_join hk

include hseeds

/-- The classes of a clique all have different colors. -/
theorem card_le_used {s : Finset Nat} (hs : IsClique (g.JoinedClasses classes) count s) :
    s.card ≤ (plan.painted.toList.filterMap id).toFinset.card := by
  have hcolor : ∀ k, ∃ c, k < count → (plan.painted[k]?).join = some c := by
    intro k
    by_cases hk : k < count
    · obtain ⟨c, hc⟩ :=
        Option.isSome_iff_exists.1 (h.isSome_painted (hpacked.classCount_eq.symm ▸ hk))
      exact ⟨c, fun _ => hc⟩
    · exact ⟨0, fun hlt => absurd hlt hk⟩
  choose color hcolor using hcolor
  refine Finset.card_le_card_of_injOn color (fun k hk => ?_) (fun a ha b hb hab => ?_)
  · exact (h.mem_colors hpacked).2 ⟨k, hs.lt k hk, hcolor k (hs.lt k hk)⟩
  · by_contra hne
    obtain ⟨hseeda, hseedb⟩ := h.seeds_of_painted (hs.joined a ha b hb hne)
      (hcolor a (hs.lt a ha)) (hab ▸ hcolor b (hs.lt b hb))
    exact hne (hseeds.distinct a b _ hseeda hseedb)

/-- There is a clique with as many classes as there are colors. -/
theorem exists_clique_of_used (hchordal : Chordal (g.JoinedClasses classes)) :
    ∃ s, IsClique (g.JoinedClasses classes) count s ∧
      (plan.painted.toList.filterMap id).toFinset.card ≤ s.card := by
  have hbound : ∀ k c : Nat, (plan.painted[k]?).join = some c →
      ∃ s, IsClique (g.JoinedClasses classes) count s ∧ c < s.card := by
    rw [← h.joined_eq, ← hpacked.classCount_eq, ← h.size]
    intro k c hc
    refine Graph.colorGreedily_bound h.sound plan.seeds (h.seeds_size.trans h.size.symm) ?_ h.first
      (fun a ha b hb hab => ?_) (fun k c hk => ?_) hc
    · rw [h.joined_eq]
      exact hchordal
    · obtain ⟨x, hx⟩ := Option.isSome_iff_exists.1 ((h.first a).1 ha)
      obtain ⟨y, hy⟩ := Option.isSome_iff_exists.1 ((h.first b).1 hb)
      exact (h.joined a b).2 (hseeds.joined a b x y ((h.seeds a x).1 hx) ((h.seeds b y).1 hy) hab)
    · rw [h.joined_eq, h.size, hpacked.classCount_eq]
      obtain ⟨s, hs, hcard⟩ := hseeds.exists_clique hpacked
      exact ⟨s, hs, hcard ▸ (hseeds.range c).1 ⟨k, (h.seeds k c).1 hk⟩⟩
  -- look at the largest color
  rcases (plan.painted.toList.filterMap id).toFinset.eq_empty_or_nonempty with hempty | hne
  · refine ⟨∅, ⟨fun a ha => ?_, fun a ha => ?_⟩, ?_⟩
    · exact absurd ha (Finset.notMem_empty a)
    · exact absurd ha (Finset.notMem_empty a)
    · rw [hempty]
  · obtain ⟨c, hc, hmax⟩ := Finset.exists_max_image _ (fun c => c) hne
    obtain ⟨k, -, hk⟩ := (h.mem_colors hpacked).1 hc
    obtain ⟨s, hs, hlt⟩ := hbound k c hk
    have hsub : (plan.painted.toList.filterMap id).toFinset ⊆ Finset.range (c + 1) :=
      fun d hd => Finset.mem_range.2 (Nat.lt_succ_of_le (hmax d hd))
    have hcard := Finset.card_le_card hsub
    rw [Finset.card_range] at hcard
    exact ⟨s, hs, hcard.trans hlt⟩

end ColorPlan.Suits

/-- **Coloring takes as few colors as can be**, if the classes are numbered without gaps, the graph
of classes is chordal, and the classes that come with a color form a clique with the first
colors: it succeeds, and the number of colors is the size of a largest clique.  The tables take any
number of classes that they have room for. -/
theorem Graph.colorClasses_optimal (g : Graph) (hg : g.Reached) (classes : Array Nat)
    (hclasses : classes.size = g.size) (colors : Colors) (hcolors : colors.size = g.size)
    (count : Nat) (hpacked : Packed classes count)
    (hinside : ∀ u v, g.adjacent u v = true → classes[u]? ≠ classes[v]?)
    (hchordal : Chordal (g.JoinedClasses classes)) (m : Nat)
    (hseeds : g.CliqueSeeded classes colors m) :
    ∃ c, g.colorClasses classes colors = .ok c ∧
      IsGreatest {n | ∃ s, IsClique (g.JoinedClasses classes) count s ∧ s.card = n} c.used ∧
      (Space.fits count Space.row = true → g.colorRequest classes colors = .ok c) := by
  have hs := hg.sound
  obtain ⟨c, hok⟩ :=
    (hseeds.colorable hs hclasses hcolors hinside).exists_coloring hs hclasses hcolors
  obtain ⟨plan, hplan, -, rfl⟩ := colorClasses_eq_ok.1 hok
  have hsuits := suits_of_plan hs hplan
  have hused : (plan.outcome classes colors).used =
      (plan.painted.toList.filterMap id).toFinset.card := length_eraseDups _
  refine ⟨_, hok, ⟨?_, ?_⟩, fun hfits => ?_⟩
  · obtain ⟨s, hclique, hle⟩ := hsuits.exists_clique_of_used hpacked hseeds hchordal
    exact ⟨s, hclique, Nat.le_antisymm
      (hused ▸ hsuits.card_le_used hpacked hseeds hclique) (hused ▸ hle)⟩
  · rintro n ⟨s, hclique, rfl⟩
    rw [hused]
    exact hsuits.card_le_used hpacked hseeds hclique
  · rw [← hok]
    apply colorRequest_eq hs
    · rw [hpacked.classCount_eq]
      exact hfits
    · -- there are no more colors beforehand than classes
      intro v c hv
      obtain ⟨k, hk⟩ := exists_class hclasses (hcolors ▸ lt_size_of_join hv)
      have hc : c < m := (hseeds.range c).1 ⟨k, v, hv, hk⟩
      obtain ⟨s, hclique, rfl⟩ := hseeds.exists_clique hpacked
      have hcard := hclique.card_le
      have hrows : count * 24 ≤ Space.maxBytes := of_decide_eq_true hfits
      exact decide_eq_true (show (c + 1) * 1 ≤ Space.maxBytes by omega)

/-- Two triangles of classes that share a side, with one more class beside them.  The last node is
in a class with another one. -/
def kite : Graph := (Graph.empty 6).addEdges [(0, 1), (0, 2), (1, 2), (1, 3), (3, 5), (3, 4)]

/-- The classes of the kite. -/
def kiteClasses : Array Nat := #[0, 1, 2, 3, 4, 2]

/-- Two ends of a triangle of the kite have a color. -/
def kiteColors : Colors := #[some 1, some 0, none, none, none, none]

theorem chordal_kite : Chordal (kite.JoinedClasses kiteClasses) := by
  have hlt : ∀ {a b}, kite.JoinedClasses kiteClasses a b → a < 5 ∧ b < 5 := by
    rintro a b ⟨u, v, -, hu, hv⟩
    exact ⟨lt_classCount hu, lt_classCount hv⟩
  have hall : ∀ u x y : Fin 5, kite.JoinedClasses kiteClasses u x →
      kite.JoinedClasses kiteClasses u y → x ≤ u → y ≤ u → x ≠ y →
      kite.JoinedClasses kiteClasses x y := by decide +kernel
  apply Chordal.of_rank id
  · exact fun a b h => h.symm ((Graph.Reached.empty 6).addEdges _).sound
  · intro u x y hx hy hxu hyu hxy
    exact hall ⟨u, (hlt hx).1⟩ ⟨x, (hlt hx).2⟩ ⟨y, (hlt hy).2⟩ hx hy hxu hyu
      fun heq => hxy (Fin.mk.inj heq)

theorem seeded_kite {k c : Nat} :
    Seeded kiteClasses kiteColors k c ↔ k = 0 ∧ c = 1 ∨ k = 1 ∧ c = 0 := by
  constructor
  · rintro ⟨v, hc, hk⟩
    have hv : v < 6 := lt_size_of_join hc
    have hall : ∀ v : Fin 6, ∀ c ∈ (kiteColors[v.val]?).join, ∀ k ∈ kiteClasses[v.val]?,
        k = 0 ∧ c = 1 ∨ k = 1 ∧ c = 0 := by decide
    exact hall ⟨v, hv⟩ c hc k hk
  · rintro (⟨rfl, rfl⟩ | ⟨rfl, rfl⟩)
    exacts [⟨0, rfl, rfl⟩, ⟨1, rfl, rfl⟩]

/-- The kite takes three colors, although one of its classes is in no triangle. -/
theorem Graph.colorClasses_optimal_kite :
    ∃ c, kite.colorClasses kiteClasses kiteColors = .ok c ∧ c.used = 3 ∧
      IsGreatest {n | ∃ s, IsClique (kite.JoinedClasses kiteClasses) 5 s ∧ s.card = n} c.used := by
  have hrun : (kite.colorClasses kiteClasses kiteColors).toOption.map (·.used) = some 3 := by
    decide +kernel
  have hpacked : Packed kiteClasses 5 := by
    intro k
    simp [kiteClasses]
    omega
  have hinside : ∀ u v, kite.adjacent u v = true → kiteClasses[u]? ≠ kiteClasses[v]? := by
    have hall : ∀ u < 6, ∀ v < 6, kite.adjacent u v = true →
        kiteClasses[u]? ≠ kiteClasses[v]? := by decide +kernel
    have hsound := ((Graph.Reached.empty 6).addEdges
      [(0, 1), (0, 2), (1, 2), (1, 3), (3, 5), (3, 4)]).sound
    exact fun u v h => hall u (lt_size_of_adjacent h) v (hsound.lt_size h) h
  have hseeds : kite.CliqueSeeded kiteClasses kiteColors 2 := by
    refine ⟨fun k a b ha hb => ?_, fun k l c hk hl => ?_, fun k l a b hk hl hkl => ?_,
      fun c => ?_⟩
    · rw [seeded_kite] at ha hb
      omega
    · rw [seeded_kite] at hk hl
      omega
    · rw [seeded_kite] at hk hl
      have hboth : kite.JoinedClasses kiteClasses 0 1 ∧ kite.JoinedClasses kiteClasses 1 0 := by
        decide +kernel
      rcases hk with ⟨rfl, -⟩ | ⟨rfl, -⟩ <;> rcases hl with ⟨rfl, -⟩ | ⟨rfl, -⟩
      exacts [absurd rfl hkl, hboth.1, hboth.2, absurd rfl hkl]
    · simp only [seeded_kite]
      constructor
      · rintro ⟨k, hk⟩
        omega
      · intro hc
        exact ⟨1 - c, by omega⟩
  obtain ⟨c, hc, hgreatest, -⟩ := kite.colorClasses_optimal ((Graph.Reached.empty 6).addEdges _)
    kiteClasses rfl kiteColors rfl 5 hpacked hinside chordal_kite 2 hseeds
  rw [hc] at hrun
  exact ⟨c, hc, Option.some.inj hrun, hgreatest⟩

end ChordalAlloc
