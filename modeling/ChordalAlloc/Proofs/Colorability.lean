/-
ChordalAlloc/Proofs/Colorability.lean

Coloring classes of variables succeeds exactly when it can.

A coloring that keeps the colors known beforehand cannot exist if an edge
joins members of one class, if a class comes with two colors, or if an edge
joins members of classes that come with the same color.  `Graph.Colorable`
says that nothing of the kind is there.  Each of the three is found by one
check: the first two while the coloring is planned, and the last one at the
end, when all edges are looked at.  Since the greedy coloring brings two ends
of an edge to one color only if both had it beforehand, that last check finds
nothing else, and so success means `Graph.Colorable`
(`Graph.colorClasses_exact`).
-/
import Mathlib.Data.Finset.Dedup
import ChordalAlloc.Proofs.Coloring

namespace ChordalAlloc

/-- What has to hold if classes can be colored such that the colors known beforehand are kept. -/
structure Graph.Colorable (g : Graph) (classes : Array Nat) (colors : Colors) : Prop where
  /-- No edge joins two members of a class. -/
  inside : ∀ u v, g.adjacent u v = true → classes[u]? ≠ classes[v]?
  /-- No class has two colors beforehand. -/
  single : ∀ u v a b : Nat, (colors[u]?).join = some a → (colors[v]?).join = some b →
    classes[u]? = classes[v]? → a = b
  /-- No edge joins members of two classes that have the same color beforehand. -/
  apart : ∀ u v u' v' c : Nat, g.adjacent u v = true → classes[u']? = classes[u]? →
    classes[v']? = classes[v]? → (colors[u']?).join = some c → (colors[v']?).join ≠ some c

/-- The colors `after` are those of a proper coloring of classes that keeps the colors
`before`. -/
structure Graph.ProperlyColored (g : Graph) (classes : Array Nat) (before after : Colors) :
    Prop where
  size : after.size = g.size
  /-- Every node has a color. -/
  all : ∀ v, v < g.size → (after[v]?).join.isSome = true
  /-- Colors known beforehand are kept. -/
  kept : ∀ v c : Nat, (before[v]?).join = some c → (after[v]?).join = some c
  /-- Members of a class share their color. -/
  shared : ∀ u v, u < g.size → v < g.size → classes[u]? = classes[v]? →
    (after[u]?).join = (after[v]?).join
  /-- The ends of an edge have different colors. -/
  proper : ∀ u v, g.adjacent u v = true → (after[u]?).join ≠ (after[v]?).join

variable {g : Graph} {classes : Array Nat} {colors : Colors} {plan : ColorPlan}

/-! ### The plan -/

/-- The plan is about these classes and these colors. -/
structure ColorPlan.Suits (plan : ColorPlan) (g : Graph) (classes : Array Nat) (colors : Colors) :
    Prop where
  sound : plan.graph.Sound
  size : plan.graph.size = classCount classes
  joined : ∀ a b, plan.graph.adjacent a b = true ↔ g.JoinedClasses classes a b
  seeds_size : plan.seeds.colors.size = classCount classes
  seeds : ∀ k c : Nat, (plan.seeds.colors[k]?).join = some c ↔
    ∃ v : Nat, (colors[v]?).join = some c ∧ classes[v]? = some k
  first : ∀ k, k ∈ plan.seeds.first ↔ (plan.seeds.colors[k]?).join.isSome = true

namespace Graph

theorem exists_class (hclasses : classes.size = g.size) {v : Nat} (hv : v < g.size) :
    ∃ k, classes[v]? = some k :=
  ⟨_, Array.getElem?_eq_getElem (hclasses.symm ▸ hv)⟩

theorem plan_eq_ok : g.plan classes colors = .ok plan ↔
    g.quotient classes (classCount classes) = .ok plan.graph ∧
      Seeds.ofColors classes (classCount classes) colors = .ok plan.seeds := by
  simp only [Graph.plan, Except.bind_eq_ok]
  constructor
  · rintro ⟨h, hquot, s, hseeds, hplan⟩
    cases hplan
    exact ⟨hquot, hseeds⟩
  · rintro ⟨hquot, hseeds⟩
    exact ⟨plan.graph, hquot, plan.seeds, hseeds, rfl⟩

/-- Nothing but an edge inside a class or a class with two colors stops the planning. -/
theorem plan_eq_error {e : Error} (hstop : g.plan classes colors = .error e) :
    (∃ u v, e = .clashInClass u v) ∨ ∃ k a b, e = .twoColors k a b := by
  rcases hquot : g.quotient classes (classCount classes) with e' | h
  · simp only [Graph.plan, hquot] at hstop
    cases hstop
    exact .inl (quotient_eq_error hquot)
  rcases hseeds : Seeds.ofColors classes (classCount classes) colors with e' | s
  · simp only [Graph.plan, hquot, hseeds] at hstop
    cases hstop
    exact .inr (Seeds.ofColors_eq_error hseeds)
  · have hok : g.plan classes colors = .ok ⟨h, s⟩ := plan_eq_ok.2 ⟨hquot, hseeds⟩
    cases hok.symm.trans hstop

theorem suits_of_plan (hg : g.Sound) (hok : g.plan classes colors = .ok plan) :
    plan.Suits g classes colors := by
  obtain ⟨hquot, hseeds⟩ := plan_eq_ok.1 hok
  obtain ⟨h, hquot', hsound, hsize, hjoined⟩ :=
    quotient_spec hg fun u v hadj k hu => inside_of_quotient hg hquot hadj hu
  cases hquot'.symm.trans hquot
  obtain ⟨hnumber, hseed, hfirst⟩ := Seeds.ofColors_spec hseeds
  exact ⟨hsound, hsize, hjoined, hnumber, hseed, hfirst⟩

/-- There is a plan if no class has an edge inside or two colors beforehand. -/
theorem Colorable.exists_plan (h : g.Colorable classes colors) (hg : g.Sound) :
    ∃ plan, g.plan classes colors = .ok plan := by
  obtain ⟨graph, hquot, -⟩ := quotient_spec hg fun u v hadj k hu hv =>
    h.inside u v hadj (hu.trans hv.symm)
  obtain ⟨seeds, hseeds⟩ := Seeds.ofColors_ok fun u v a b k ha hb hu hv =>
    h.single u v a b ha hb (hu.trans hv.symm)
  exact ⟨⟨graph, seeds⟩, plan_eq_ok.2 ⟨hquot, hseeds⟩⟩

end Graph

/-! ### The colors that are found -/

namespace ColorPlan

/-- The colors of classes that come from a plan. -/
def painted (plan : ColorPlan) : Colors := plan.graph.colorGreedily plan.seeds

/-- The colors of variables that come from a plan. -/
def outcome (plan : ColorPlan) (classes : Array Nat) (colors : Colors) : Coloring where
  colors := spread classes plan.painted colors
  classes := plan.graph.size
  used := (plan.painted.toList.filterMap id).eraseDups.length

theorem join_spread {v k : Nat} (hv : v < colors.size) (hk : classes[v]? = some k) :
    ((spread classes plan.painted colors)[v]?).join = (plan.painted[k]?).join := by
  simp only [spread, Array.getElem?_mapIdx, Array.getElem?_eq_getElem hv, Option.map_some, hk,
    Option.join_some]

namespace Suits

variable (h : plan.Suits g classes colors) (hclasses : classes.size = g.size)
  (hcolors : colors.size = g.size)

include h

theorem size_painted : plan.painted.size = classCount classes :=
  (Graph.colorGreedily_spec h.sound _ (h.seeds_size.trans h.size.symm)).1.trans h.size

theorem isSome_painted {k : Nat} (hk : k < classCount classes) :
    (plan.painted[k]?).join.isSome = true :=
  (Graph.colorGreedily_spec h.sound _ (h.seeds_size.trans h.size.symm)).2.1 k (h.size.symm ▸ hk)

/-- Classes keep the colors of their variables. -/
theorem painted_of_seed {v k c : Nat} (hv : (colors[v]?).join = some c)
    (hk : classes[v]? = some k) : (plan.painted[k]?).join = some c :=
  (Graph.colorGreedily_spec h.sound _ (h.seeds_size.trans h.size.symm)).2.2.1 k c
    ((h.seeds k c).2 ⟨v, hv, hk⟩)

/-- Joined classes share a color only if members of both had it beforehand. -/
theorem seeds_of_painted {a b c : Nat} (hab : g.JoinedClasses classes a b)
    (ha : (plan.painted[a]?).join = some c) (hb : (plan.painted[b]?).join = some c) :
    (∃ v : Nat, (colors[v]?).join = some c ∧ classes[v]? = some a) ∧
      ∃ v : Nat, (colors[v]?).join = some c ∧ classes[v]? = some b := by
  obtain ⟨hsa, hsb⟩ :=
    (Graph.colorGreedily_spec h.sound _ (h.seeds_size.trans h.size.symm)).2.2.2 a b c
      ((h.joined a b).2 hab) ha hb
  exact ⟨(h.seeds a c).1 hsa, (h.seeds b c).1 hsb⟩

include hclasses hcolors

/-- A variable has the color of its class. -/
theorem exists_color {v : Nat} (hv : v < g.size) : ∃ k c, classes[v]? = some k ∧
    (plan.painted[k]?).join = some c ∧
      ((spread classes plan.painted colors)[v]?).join = some c := by
  obtain ⟨k, hk⟩ := Graph.exists_class hclasses hv
  obtain ⟨c, hc⟩ := Option.isSome_iff_exists.1 (h.isSome_painted (lt_classCount hk))
  exact ⟨_, c, hk, hc, (join_spread (hcolors.symm ▸ hv) hk).trans hc⟩

/-- The last check finds exactly the edges between classes with the same color beforehand. -/
theorem checkColors_iff (hg : g.Sound) :
    g.checkColors (spread classes plan.painted colors) = .ok () ↔
      ∀ u v u' v' c : Nat, g.adjacent u v = true → classes[u']? = classes[u]? →
        classes[v']? = classes[v]? → (colors[u']?).join = some c → (colors[v']?).join ≠ some c := by
  rw [Graph.checkColors_eq_ok]
  constructor
  · intro hcheck u v u' v' c hadj hu' hv' hcu hcv
    -- both ends get the color, so the check finds the edge
    have color : ∀ {x x' : Nat}, x < g.size → classes[x']? = classes[x]? →
        (colors[x']?).join = some c →
        ((spread classes plan.painted colors)[x]?).join = some c := by
      intro x x' hx hxx' hc
      obtain ⟨k, d, hk, hd, hread⟩ := h.exists_color hclasses hcolors hx
      rw [h.painted_of_seed hc (hxx'.trans hk)] at hd
      exact hread.trans hd.symm
    have hu := color (Graph.lt_size_of_adjacent hadj) hu' hcu
    have hv := color (hg.lt_size hadj) hv' hcv
    rcases Nat.lt_or_gt_of_ne (hg.ne hadj) with hlt | hlt
    · exact hcheck u v c hadj hlt hu hv
    · exact hcheck v u c (hg.symm u v hadj) hlt hv hu
  · intro hapart u v c hadj _ hu hv
    obtain ⟨a, x, ha, hx, hreadu⟩ :=
      h.exists_color hclasses hcolors (Graph.lt_size_of_adjacent hadj)
    obtain ⟨b, y, hb, hy, hreadv⟩ := h.exists_color hclasses hcolors (hg.lt_size hadj)
    cases hu.symm.trans hreadu
    cases hv.symm.trans hreadv
    obtain ⟨⟨u', hcu, hu'⟩, v', hcv, hv'⟩ := h.seeds_of_painted ⟨u, v, hadj, ha, hb⟩ hx hy
    exact hapart u v u' v' c hadj (hu'.trans ha.symm) (hv'.trans hb.symm) hcu hcv

/-- If the last check passes, the coloring is proper. -/
theorem properlyColored (hg : g.Sound)
    (hcheck : g.checkColors (spread classes plan.painted colors) = .ok ()) :
    g.ProperlyColored classes colors (spread classes plan.painted colors) where
  size := by rw [spread, Array.size_mapIdx, hcolors]
  all v hv := by
    obtain ⟨k, c, -, -, hread⟩ := h.exists_color hclasses hcolors hv
    rw [hread, Option.isSome_some]
  kept v c hc := by
    obtain ⟨k, d, hk, hd, hread⟩ :=
      h.exists_color hclasses hcolors (hcolors ▸ lt_size_of_join hc)
    rw [hread, ← hd, h.painted_of_seed hc hk]
  shared u v hu hv heq := by
    obtain ⟨a, c, ha, hc, hreadu⟩ := h.exists_color hclasses hcolors hu
    obtain ⟨b, d, hb, hd, hreadv⟩ := h.exists_color hclasses hcolors hv
    cases ha.symm.trans (heq.trans hb)
    rw [hreadu, hreadv, ← hc, ← hd]
  proper u v hadj heq := by
    obtain ⟨a, c, -, -, hread⟩ :=
      h.exists_color hclasses hcolors (Graph.lt_size_of_adjacent hadj)
    rw [Graph.checkColors_eq_ok] at hcheck
    rcases Nat.lt_or_gt_of_ne (hg.ne hadj) with hlt | hlt
    · exact hcheck u v c hadj hlt hread (heq.symm.trans hread)
    · exact hcheck v u c (hg.symm u v hadj) hlt (heq.symm.trans hread) hread

end Suits

end ColorPlan

/-! ### Success and failure -/

namespace Graph

theorem colorPlanned_eq (g : Graph) (classes : Array Nat) (colors : Colors) (plan : ColorPlan) :
    g.colorPlanned classes colors plan =
      match g.checkColors (spread classes plan.painted colors) with
      | .error e => .error ⟨e, spread classes plan.painted colors⟩
      | .ok () => .ok (plan.outcome classes colors) := rfl

theorem colorClasses_eq_ok {c : Coloring} : g.colorClasses classes colors = .ok c ↔
    ∃ plan, g.plan classes colors = .ok plan ∧
      g.checkColors (spread classes plan.painted colors) = .ok () ∧
      plan.outcome classes colors = c := by
  unfold colorClasses
  rcases hplan : g.plan classes colors with e | plan
  · simp
  rcases hcheck : g.checkColors (spread classes plan.painted colors) with e | ⟨⟩
  · simp [colorPlanned_eq, hcheck]
  · simp [colorPlanned_eq, hcheck]

/-- Where the coloring stops early, no color has changed yet. -/
theorem colorClasses_eq_error {stop : Stopped Colors}
    (hstop : g.colorClasses classes colors = .error stop) :
    ((∃ u v, stop.reason = .clashInClass u v) ∨ ∃ k a b, stop.reason = .twoColors k a b) ∧
      stop.state = colors ∨ ∃ u v c, stop.reason = .sharedColor u v c := by
  unfold colorClasses at hstop
  rcases hplan : g.plan classes colors with e | plan
  · rw [hplan] at hstop
    cases hstop
    exact .inl ⟨plan_eq_error hplan, rfl⟩
  · rw [hplan] at hstop
    dsimp only at hstop
    rw [colorPlanned_eq] at hstop
    rcases hcheck : g.checkColors (spread classes plan.painted colors) with e | ⟨⟩
    · rw [hcheck] at hstop
      cases hstop
      exact .inr (checkColors_eq_error hcheck)
    · rw [hcheck] at hstop
      cases hstop

/-- Nothing stops the coloring of classes that can be colored. -/
theorem Colorable.exists_coloring (h : g.Colorable classes colors) (hg : g.Sound)
    (hclasses : classes.size = g.size) (hcolors : colors.size = g.size) :
    ∃ c, g.colorClasses classes colors = .ok c := by
  obtain ⟨plan, hplan⟩ := h.exists_plan hg
  have hsuits := suits_of_plan hg hplan
  exact ⟨_, colorClasses_eq_ok.2
    ⟨plan, hplan, (hsuits.checkColors_iff hclasses hcolors hg).2 h.apart, rfl⟩⟩

/-- What was colored could be colored. -/
theorem colorable_of_colorClasses {c : Coloring} (hg : g.Sound) (hclasses : classes.size = g.size)
    (hcolors : colors.size = g.size) (hok : g.colorClasses classes colors = .ok c) :
    g.Colorable classes colors := by
  obtain ⟨plan, hplan, hcheck, -⟩ := colorClasses_eq_ok.1 hok
  have hsuits := suits_of_plan hg hplan
  refine ⟨fun u v hadj heq => ?_, fun u v a b ha hb heq => ?_,
    (hsuits.checkColors_iff hclasses hcolors hg).1 hcheck⟩
  · obtain ⟨k, hu⟩ := exists_class hclasses (lt_size_of_adjacent hadj)
    exact inside_of_quotient hg (plan_eq_ok.1 hplan).1 hadj hu (heq.symm.trans hu)
  · obtain ⟨k, hu⟩ := exists_class hclasses (hcolors ▸ lt_size_of_join ha)
    have hseed := (hsuits.seeds _ a).2 ⟨u, ha, hu⟩
    rw [(hsuits.seeds _ b).2 ⟨v, hb, heq.symm.trans hu⟩] at hseed
    exact (Option.some.inj hseed).symm

/-- Coloring gives a proper coloring. -/
theorem properlyColored_of_colorClasses {c : Coloring} (hg : g.Sound)
    (hclasses : classes.size = g.size) (hcolors : colors.size = g.size)
    (hok : g.colorClasses classes colors = .ok c) : g.ProperlyColored classes colors c.colors := by
  obtain ⟨plan, hplan, hcheck, rfl⟩ := colorClasses_eq_ok.1 hok
  exact (suits_of_plan hg hplan).properlyColored hclasses hcolors hg hcheck

end Graph

/-! ### Counting colors -/

theorem length_eraseDups (l : List Nat) : l.eraseDups.length = l.toFinset.card := by
  rw [← List.toFinset_card_of_nodup (nodup_eraseDups l)]
  congr 1
  ext x
  rw [List.mem_toFinset, List.mem_toFinset, List.mem_eraseDups]

/-- The numbers of the classes are those below `count`, each of them in use. -/
def Packed (classes : Array Nat) (count : Nat) : Prop := ∀ k, k ∈ classes ↔ k < count

theorem Packed.exists_member {count k : Nat} (h : Packed classes count) (hk : k < count) :
    ∃ v : Nat, classes[v]? = some k := Array.mem_iff_getElem?.1 ((h k).2 hk)

theorem Packed.classCount_eq {count : Nat} (h : Packed classes count) :
    classCount classes = count := by
  apply Nat.le_antisymm
  · exact classCount_le fun v k hk => (h k).1 (Array.mem_of_getElem? hk)
  · rcases count with - | count
    · exact Nat.zero_le _
    · obtain ⟨v, hv⟩ := h.exists_member (Nat.lt_succ_self count)
      exact lt_classCount hv

/-- If every class has a member, variables and classes have the same colors. -/
theorem ColorPlan.Suits.exists_painted_iff {count : Nat} (h : plan.Suits g classes colors)
    (hclasses : classes.size = g.size) (hcolors : colors.size = g.size)
    (hpacked : Packed classes count) (x : Nat) : (∃ k : Nat, (plan.painted[k]?).join = some x) ↔
      ∃ v : Nat, ((spread classes plan.painted colors)[v]?).join = some x := by
  constructor
  · rintro ⟨k, hk⟩
    have hlt : k < count := by
      rw [← hpacked.classCount_eq, ← h.size_painted]
      exact lt_size_of_join hk
    obtain ⟨v, hv⟩ := hpacked.exists_member hlt
    have hsize : v < colors.size := by
      rw [hcolors, ← hclasses]
      exact (Array.getElem?_eq_some_iff.1 hv).1
    exact ⟨v, (join_spread hsize hv).trans hk⟩
  · rintro ⟨v, hv⟩
    have hlt : v < g.size := by
      have hsize := lt_size_of_join hv
      rwa [spread, Array.size_mapIdx, hcolors] at hsize
    obtain ⟨k, c, -, hc, hread⟩ := h.exists_color hclasses hcolors hlt
    exact ⟨k, hc.trans (hread.symm.trans hv)⟩

theorem ColorPlan.used_outcome (plan : ColorPlan) (classes : Array Nat) (colors : Colors) :
    (plan.outcome classes colors).used = (plan.painted.toList.filterMap id).toFinset.card :=
  length_eraseDups _

theorem ColorPlan.Suits.used_eq {count : Nat} (h : plan.Suits g classes colors)
    (hclasses : classes.size = g.size) (hcolors : colors.size = g.size)
    (hpacked : Packed classes count) : (plan.outcome classes colors).used =
      ((spread classes plan.painted colors).toList.filterMap id).toFinset.card := by
  rw [used_outcome]
  congr 1
  ext x
  rw [List.mem_toFinset, List.mem_toFinset, mem_filterMap_id, mem_filterMap_id]
  exact h.exists_painted_iff hclasses hcolors hpacked x

/-! ### Numbers from outside -/

/-- As long as the tables can be, any numbers will do for classes and colors. -/
theorem Graph.colorRequest_eq (hg : g.Sound)
    (hrows : Space.fits (classCount classes) Space.row = true)
    (hflags : ∀ v c : Nat, (colors[v]?).join = some c → Space.fits (c + 1) Space.flag = true) :
    g.colorRequest classes colors = g.colorClasses classes colors := by
  unfold colorRequest colorClasses
  rw [hrows]
  rcases hplan : g.plan classes colors with e | plan
  · rfl
  have hfits : plan.overflows = false := by
    rw [← Bool.not_eq_true, ColorPlan.overflows, List.any_eq_true]
    rintro ⟨k, -, hk⟩
    rw [Bool.and_eq_true, List.any_eq_true] at hk
    obtain ⟨-, c, hc, hover⟩ := hk
    obtain ⟨j, -, hj⟩ := mem_takenColors.1 hc
    obtain ⟨v, hv, -⟩ := ((suits_of_plan hg hplan).seeds j c).1 hj
    rw [hflags v c hv] at hover
    cases hover
  simp [hfits]

/-- **Coloring succeeds exactly when it can.**  It succeeds if and only if no edge joins two members
of a class, no class comes with two colors, and no edge joins members of classes that come with the
same color.  Then the coloring is proper, keeps the colors there were, and its number of colors is
counted right if the classes are numbered without gaps.  Where it stops for one of the first two
reasons, the colors are as they were.  The tables take any numbers that they have room for. -/
theorem Graph.colorClasses_exact (g : Graph) (hg : g.Reached) (classes : Array Nat)
    (hclasses : classes.size = g.size) (colors : Colors) (hcolors : colors.size = g.size) :
    ((∃ c, g.colorClasses classes colors = .ok c) ↔ g.Colorable classes colors) ∧
    (∀ c, g.colorClasses classes colors = .ok c →
      g.ProperlyColored classes colors c.colors ∧
      ∀ count, Packed classes count →
        c.used = (c.colors.toList.filterMap id).toFinset.card) ∧
    (∀ stop, g.colorClasses classes colors = .error stop →
      ((∃ u v, stop.reason = .clashInClass u v) ∨ ∃ k a b, stop.reason = .twoColors k a b) ∧
        stop.state = colors ∨ ∃ u v c, stop.reason = .sharedColor u v c) ∧
    (Space.fits (classCount classes) Space.row = true →
      (∀ v c : Nat, (colors[v]?).join = some c → Space.fits (c + 1) Space.flag = true) →
      g.colorRequest classes colors = g.colorClasses classes colors) := by
  have hs := hg.sound
  refine ⟨⟨?_, fun h => h.exists_coloring hs hclasses hcolors⟩, fun c hok => ⟨?_, ?_⟩,
    fun stop => colorClasses_eq_error, colorRequest_eq hs⟩
  · rintro ⟨c, hok⟩
    exact colorable_of_colorClasses hs hclasses hcolors hok
  · exact properlyColored_of_colorClasses hs hclasses hcolors hok
  · intro count hpacked
    obtain ⟨plan, hplan, -, rfl⟩ := colorClasses_eq_ok.1 hok
    exact (suits_of_plan hs hplan).used_eq hclasses hcolors hpacked

/-- Two edges that meet in a node. -/
def fork : Graph := (Graph.empty 4).addEdges [(1, 2), (2, 3)]

/-- The outer ends of the fork make up one class, and a node apart from it has a color. -/
theorem Graph.colorClasses_exact_fork :
    fork.Reached ∧ ∃ c, fork.colorClasses #[0, 1, 2, 1] #[some 0, none, none, none] = .ok c ∧
      c.used = 2 ∧ fork.Colorable #[0, 1, 2, 1] #[some 0, none, none, none] ∧
      fork.ProperlyColored #[0, 1, 2, 1] #[some 0, none, none, none] c.colors ∧
      c.used = (c.colors.toList.filterMap id).toFinset.card := by
  have hreached : fork.Reached := (Graph.Reached.empty 4).addEdges _
  have hrun : (fork.colorClasses #[0, 1, 2, 1] #[some 0, none, none, none]).toOption.map
      (·.used) = some 2 := by decide +kernel
  have hpacked : Packed #[0, 1, 2, 1] 3 := by
    intro k
    simp
    omega
  obtain ⟨hiff, hgood, -, -⟩ := fork.colorClasses_exact hreached #[0, 1, 2, 1] rfl
    #[some 0, none, none, none] rfl
  rcases hc : fork.colorClasses #[0, 1, 2, 1] #[some 0, none, none, none] with e | c
  · rw [hc] at hrun
    cases hrun
  · rw [hc] at hrun
    obtain ⟨hproper, hused⟩ := hgood c hc
    exact ⟨hreached, c, rfl, Option.some.inj hrun, hiff.1 ⟨c, hc⟩, hproper, hused 3 hpacked⟩

end ChordalAlloc
