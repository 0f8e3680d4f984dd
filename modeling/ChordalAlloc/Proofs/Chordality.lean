/-
ChordalAlloc/Proofs/Chordality.lean

Chordal graphs: every cycle of four nodes or more has a chord.

Two facts are needed about them, one for each direction of the well-known
connection with orders in which the nodes can be taken away one by one.

* If nodes have ranks such that the neighbours of a node that do not rank
  above it are joined to each other, the graph is chordal: look at a node of
  a cycle that ranks highest (`Chordal.of_rank`).
* If the nodes of a chordal graph are visited such that a node with the most
  visited neighbours is always next, the earlier neighbours of every node are
  joined to each other (`Chordal.earlier_adjacent`).  Of the search only this
  is used: if an earlier node is joined to `c` and not to `b`, although `b`
  comes before `c`, then another earlier node is joined to `b` and not to `c`
  (`SearchOrder`).  If two earlier neighbours of a node were not joined, there
  would be a path without chords whose inner nodes come after both ends.
  Whenever there is such a path, the search gives another one with an earlier
  later end, and this cannot go on for ever (`LatePath.not_chordal`).
-/
import Mathlib.Data.Finset.Max
import Mathlib.Order.Interval.Finset.Nat

namespace ChordalAlloc

variable {V : Type} {adj : V → V → Prop}

/-! ### Cycles and chords -/

/-- The nodes `c 0, …, c (n - 1)` form a cycle: they are different, each is joined to the next
one, and the last one to the first. -/
structure IsCycle (adj : V → V → Prop) (n : Nat) (c : Nat → V) : Prop where
  inj : ∀ i j, i < n → j < n → c i = c j → i = j
  next : ∀ i, i + 1 < n → adj (c i) (c (i + 1))
  close : adj (c (n - 1)) (c 0)

/-- Two nodes of the cycle are joined that are not next to each other in it. -/
def HasChord (adj : V → V → Prop) (n : Nat) (c : Nat → V) : Prop :=
  ∃ i j, i + 1 < j ∧ j < n ∧ ¬(i = 0 ∧ j + 1 = n) ∧ adj (c i) (c j)

/-- Every cycle of at least four nodes has a chord. -/
def Chordal (adj : V → V → Prop) : Prop :=
  ∀ n c, 4 ≤ n → IsCycle adj n c → HasChord adj n c

/-- **A graph whose nodes can be taken away from the top is chordal.** -/
theorem Chordal.of_rank {R : Type} [LinearOrder R] (rank : V → R)
    (hsymm : ∀ a b, adj a b → adj b a)
    (hclique : ∀ u x y, adj u x → adj u y → rank x ≤ rank u → rank y ≤ rank u → x ≠ y →
      adj x y) : Chordal adj := by
  intro n c hn hc
  obtain ⟨m, hm, hmax⟩ := Finset.exists_max_image (Finset.range n) (fun i => rank (c i))
    ⟨0, Finset.mem_range.2 (by omega)⟩
  rw [Finset.mem_range] at hm
  -- the two neighbours of the highest node in the cycle are joined
  have meet : ∀ i j, i < n → j < n → i ≠ j → adj (c m) (c i) → adj (c m) (c j) →
      adj (c i) (c j) := by
    intro i j hi hj hij hmi hmj
    apply hclique (c m) _ _ hmi hmj (hmax i (Finset.mem_range.2 hi))
      (hmax j (Finset.mem_range.2 hj))
    exact fun heq => hij (hc.inj i j hi hj heq)
  rcases Nat.eq_zero_or_pos m with rfl | hpos
  · refine ⟨1, n - 1, by omega, by omega, by omega, meet _ _ (by omega) (by omega) (by omega) ?_ ?_⟩
    · exact hc.next 0 (by omega)
    · exact hsymm _ _ hc.close
  obtain ⟨l, rfl⟩ := Nat.exists_eq_succ_of_ne_zero (Nat.ne_of_gt hpos)
  have hback : adj (c (l + 1)) (c l) := hsymm _ _ (hc.next l hm)
  rcases Nat.lt_or_ge (l + 2) n with hlt | hge
  · exact ⟨l, l + 2, by omega, hlt, by omega,
      meet l (l + 2) (by omega) hlt (by omega) hback (hc.next (l + 1) hlt)⟩
  · have hlast : n - 1 = l + 1 := by omega
    have hnext : adj (c (l + 1)) (c 0) := hlast ▸ hc.close
    exact ⟨0, l, by omega, by omega, by omega,
      meet 0 l (by omega) (by omega) (by omega) hnext hback⟩

/-! ### Paths without chords -/

/-- The nodes `path 0, …, path k` are different, and joined only if they follow each other. -/
structure InducedPath (adj : V → V → Prop) (k : Nat) (path : Nat → V) : Prop where
  inj : ∀ i j, i ≤ k → j ≤ k → path i = path j → i = j
  adj_iff : ∀ i j, i < j → j ≤ k → (adj (path i) (path j) ↔ j = i + 1)

/-- Follow a path up to a position and then leave it. -/
def divert (path : Nat → V) (i : Nat) (d : V) (j : Nat) : V := if j ≤ i then path j else d

theorem divert_of_le {path : Nat → V} {i j : Nat} {d : V} (h : j ≤ i) :
    divert path i d j = path j := if_pos h

theorem divert_succ {path : Nat → V} {i : Nat} {d : V} : divert path i d (i + 1) = d :=
  if_neg (Nat.not_succ_le_self i)

namespace InducedPath

variable {k i : Nat} {path : Nat → V} {d : V}

theorem reverse (h : InducedPath adj k path) (hsymm : ∀ a b, adj a b → adj b a) :
    InducedPath adj k fun i => path (k - i) where
  inj i j hi hj heq := by
    have := h.inj _ _ (Nat.sub_le k i) (Nat.sub_le k j) heq
    omega
  adj_iff i j hij hj := by
    have hiff := h.adj_iff (k - j) (k - i) (by omega) (Nat.sub_le k i)
    constructor
    · intro hadj
      have := hiff.1 (hsymm _ _ hadj)
      omega
    · intro heq
      exact hsymm _ _ (hiff.2 (by omega))

/-- The nodes of a path that is left for a node off the path are different. -/
theorem divert_inj (h : InducedPath adj k path) (hi : i ≤ k) (hoff : ∀ j, j ≤ i → path j ≠ d)
    {x y : Nat} (hx : x ≤ i + 1) (hy : y ≤ i + 1) (heq : divert path i d x = divert path i d y) :
    x = y := by
  rcases Nat.lt_or_ge i x with hix | hix <;> rcases Nat.lt_or_ge i y with hiy | hiy
  · omega
  · obtain rfl : x = i + 1 := Nat.le_antisymm hx hix
    rw [divert_succ, divert_of_le hiy] at heq
    exact absurd heq.symm (hoff y hiy)
  · obtain rfl : y = i + 1 := Nat.le_antisymm hy hiy
    rw [divert_succ, divert_of_le hix] at heq
    exact absurd heq (hoff x hix)
  · rw [divert_of_le hix, divert_of_le hiy] at heq
    exact h.inj x y (hix.trans hi) (hiy.trans hi) heq

/-- On a diverted path the nodes are joined as they were, and the last one as it may be. -/
theorem adj_divert (h : InducedPath adj k path) (hi : i ≤ k) (hlast : adj (path i) d)
    (hmid : ∀ j, 0 < j → j < i → ¬ adj (path j) d) {x y : Nat} (hxy : x < y) (hy : y ≤ i + 1)
    (hends : ¬(x = 0 ∧ y = i + 1)) :
    adj (divert path i d x) (divert path i d y) ↔ y = x + 1 := by
  rcases Nat.lt_or_ge i y with hiy | hiy
  · obtain rfl : y = i + 1 := Nat.le_antisymm hy hiy
    rw [divert_of_le (Nat.le_of_lt_succ hxy), divert_succ]
    rcases Nat.lt_or_ge x i with hxi | hxi
    · exact iff_of_false (hmid x (by omega) hxi) (by omega)
    · obtain rfl : x = i := by omega
      exact iff_of_true hlast rfl
  · rw [divert_of_le (by omega), divert_of_le hiy]
    exact h.adj_iff x y hxy (hiy.trans hi)

/-- In a chordal graph the ends of a diverted path are not joined. -/
theorem not_adj_of_chordal (h : InducedPath adj k path) (hi : i ≤ k) (htwo : 2 ≤ i)
    (hoff : ∀ j, j ≤ i → path j ≠ d) (hlast : adj (path i) d)
    (hmid : ∀ j, 0 < j → j < i → ¬ adj (path j) d) (hchordal : Chordal adj)
    (hsymm : ∀ a b, adj a b → adj b a) : ¬ adj (path 0) d := by
  intro hadj
  have hcycle : IsCycle adj (i + 2) (divert path i d) := by
    refine ⟨fun x y hx hy => ?_, fun x hx => ?_, ?_⟩
    · exact h.divert_inj hi hoff (Nat.le_of_lt_succ hx) (Nat.le_of_lt_succ hy)
    · exact (h.adj_divert hi hlast hmid (Nat.lt_succ_self x) (by omega) (by omega)).2 rfl
    · show adj (divert path i d (i + 1)) (divert path i d 0)
      rw [divert_succ, divert_of_le (Nat.zero_le i)]
      exact hsymm _ _ hadj
  obtain ⟨x, y, hxy, hy, hends, hchord⟩ := hchordal (i + 2) _ (by omega) hcycle
  have := (h.adj_divert hi hlast hmid (by omega) (by omega) (by omega)).1 hchord
  omega

/-- Leaving a path where it meets another node gives a path again. -/
theorem divert (h : InducedPath adj k path) (hi : i ≤ k) (hpos : 0 < i)
    (hoff : ∀ j, j ≤ i → path j ≠ d) (hlast : adj (path i) d)
    (hmid : ∀ j, 0 < j → j < i → ¬ adj (path j) d) (hfirst : ¬ adj (path 0) d) :
    InducedPath adj (i + 1) (divert path i d) where
  inj x y hx hy := h.divert_inj hi hoff hx hy
  adj_iff x y hxy hy := by
    by_cases hends : x = 0 ∧ y = i + 1
    · obtain ⟨rfl, rfl⟩ := hends
      rw [divert_succ, divert_of_le (Nat.zero_le i)]
      exact iff_of_false hfirst (by omega)
    · exact h.adj_divert hi hlast hmid hxy hy hends

end InducedPath

/-- From `x` over `u` to `y`. -/
def twoSteps (x u y : V) : Nat → V
  | 0 => x
  | 1 => u
  | _ => y

theorem inducedPath_twoSteps {x u y : V} (hxu : adj x u) (huy : adj u y) (hnot : ¬ adj x y)
    (hx : x ≠ u) (hy : u ≠ y) (hxy : x ≠ y) : InducedPath adj 2 (twoSteps x u y) where
  inj i j hi hj heq := by
    rcases i with - | - | - | i <;> rcases j with - | - | - | j <;> simp_all [twoSteps]
  adj_iff i j hij hj := by
    rcases j with - | - | - | j
    · omega
    · obtain rfl : i = 0 := by omega
      exact iff_of_true hxu rfl
    · rcases i with - | - | i
      · exact iff_of_false hnot (by omega)
      · exact iff_of_true huy rfl
      · omega
    · omega

/-! ### Orders of a search -/

/-- The nodes are visited such that none has fewer visited neighbours than one that comes
later. -/
structure SearchOrder (adj : V → V → Prop) (time : V → Nat) : Prop where
  /-- Two nodes that come before another one come one after the other. -/
  apart : ∀ a b c, time a = time b → time a < time c → a = b
  /-- If an earlier neighbour of `c` is none of `b`, an earlier neighbour of `b` is none of `c`. -/
  pick : ∀ a b c, time a < time b → time b < time c → adj a c → ¬ adj a b →
    ∃ d, time d < time b ∧ adj d b ∧ ¬ adj d c

variable {time : V → Nat}

/-- A path without chords whose inner nodes all come after both ends. -/
structure LatePath (adj : V → V → Prop) (time : V → Nat) (k : Nat) (path : Nat → V) : Prop where
  induced : InducedPath adj k path
  two_le : 2 ≤ k
  late : ∀ i, 0 < i → i < k → time (path 0) < time (path i) ∧ time (path k) < time (path i)

namespace LatePath

variable {k : Nat} {path : Nat → V}

theorem not_adj_ends (h : LatePath adj time k path) : ¬ adj (path 0) (path k) := by
  have hk := h.two_le
  intro hadj
  have := (h.induced.adj_iff 0 k (by omega) (Nat.le_refl k)).1 hadj
  omega

theorem reverse (h : LatePath adj time k path) (hsymm : ∀ a b, adj a b → adj b a) :
    LatePath adj time k fun i => path (k - i) := by
  refine ⟨h.induced.reverse hsymm, h.two_le, fun i hi hik => ?_⟩
  rw [Nat.sub_zero, Nat.sub_self]
  exact (h.late (k - i) (by omega) (by omega)).symm

/-- The ends are not visited at the same time. -/
theorem time_ne (h : LatePath adj time k path) (ht : SearchOrder adj time) :
    time (path 0) ≠ time (path k) := by
  have hk := h.two_le
  intro heq
  have hsame := ht.apart _ _ _ heq (h.late 1 Nat.one_pos hk).1
  have := h.induced.inj 0 k (Nat.zero_le k) (Nat.le_refl k) hsame
  omega

/-- If the path ends later than it starts, its last end was preferred to the node after the first
end.  So it has an earlier neighbour that this node does not have, and a part of the path leads
there. -/
theorem exists_earlier (h : LatePath adj time k path) (hchordal : Chordal adj)
    (hsymm : ∀ a b, adj a b → adj b a) (ht : SearchOrder adj time)
    (hends : time (path 0) < time (path k)) :
    ∃ k' path', LatePath adj time k' path' ∧ path' 0 = path 0 ∧
      time (path' k') < time (path k) := by
  have hk := h.two_le
  obtain ⟨d, hd, hdk, hd1⟩ := ht.pick (path 0) (path k) (path 1) hends (h.late 1 Nat.one_pos hk).2
    ((h.induced.adj_iff 0 1 Nat.one_pos (by omega)).2 rfl) h.not_adj_ends
  -- the first node of the path, its start apart, that the new node is joined to
  have hex : ∃ i, 0 < i ∧ adj (path i) d := ⟨k, by omega, hsymm _ _ hdk⟩
  classical
  obtain ⟨i, ⟨hpos, hi⟩, hleast⟩ : ∃ i, (0 < i ∧ adj (path i) d) ∧
      ∀ j, 0 < j → j < i → ¬ adj (path j) d :=
    ⟨Nat.find hex, Nat.find_spec hex, fun j hj hlt hadj => Nat.find_min hex hlt ⟨hj, hadj⟩⟩
  have hik : i ≤ k := by
    by_contra hlt
    exact hleast k (by omega) (by omega) (hsymm _ _ hdk)
  have htwo : 2 ≤ i := by
    by_contra hlt
    obtain rfl : i = 1 := by omega
    exact hd1 (hsymm _ _ hi)
  have hlate : ∀ j, 0 < j → j ≤ i → time (path 0) < time (path j) ∧ time d < time (path j) := by
    intro j hj hji
    rcases Nat.lt_or_ge j k with hjk | hjk
    · obtain ⟨hzero, hend⟩ := h.late j hj hjk
      exact ⟨hzero, hd.trans hend⟩
    · obtain rfl : j = k := Nat.le_antisymm (hji.trans hik) hjk
      exact ⟨hends, hd⟩
  have hoff : ∀ j, j ≤ i → path j ≠ d := by
    rintro j hji rfl
    rcases Nat.eq_zero_or_pos j with rfl | hj
    · exact h.not_adj_ends hdk
    · exact Nat.lt_irrefl _ (hlate j hj hji).2
  have hstart := h.induced.not_adj_of_chordal hik htwo hoff hi hleast hchordal hsymm
  refine ⟨i + 1, divert path i d,
    ⟨h.induced.divert hik hpos hoff hi hleast hstart, by omega, fun j hj hji => ?_⟩, ?_, ?_⟩
  · rw [divert_succ, divert_of_le (Nat.zero_le i), divert_of_le (Nat.le_of_lt_succ hji)]
    exact hlate j hj (Nat.le_of_lt_succ hji)
  · rw [divert_of_le (Nat.zero_le i)]
  · rw [divert_succ]
    exact hd

/-- In a chordal graph there is no such path. -/
theorem not_chordal (h : LatePath adj time k path) (hsymm : ∀ a b, adj a b → adj b a)
    (ht : SearchOrder adj time) : ¬ Chordal adj := by
  intro hchordal
  -- the time of the later end goes down
  induction hN : max (time (path 0)) (time (path k)) using Nat.strongRecOn generalizing k path with
  | _ N ih =>
    rcases Nat.lt_or_gt_of_ne (h.time_ne ht) with hlt | hgt
    · obtain ⟨k', path', h', hstart, hend⟩ := h.exists_earlier hchordal hsymm ht hlt
      exact ih _ (by rw [← hN, hstart]; omega) h' rfl
    · have hback := h.reverse hsymm
      obtain ⟨k', path', h', hstart, hend⟩ := hback.exists_earlier hchordal hsymm ht (by simpa)
      rw [Nat.sub_zero] at hstart
      rw [Nat.sub_self] at hend
      exact ih _ (by rw [← hN, hstart]; omega) h' rfl

end LatePath

/-- **The earlier neighbours of a node are joined to each other**, if a chordal graph is
searched. -/
theorem Chordal.earlier_adjacent (hchordal : Chordal adj) (hsymm : ∀ a b, adj a b → adj b a)
    (ht : SearchOrder adj time) {u x y : V} (hx : adj x u) (hy : adj y u) (hxu : time x < time u)
    (hyu : time y < time u) (hxy : x ≠ y) : adj x y := by
  by_contra hnot
  -- otherwise they are the ends of a path over the node
  have hpath : LatePath adj time 2 (twoSteps x u y) := by
    refine ⟨inducedPath_twoSteps hx (hsymm _ _ hy) hnot ?_ ?_ hxy, Nat.le_refl 2, fun i hi hik => ?_⟩
    · rintro rfl
      exact Nat.lt_irrefl _ hxu
    · rintro rfl
      exact Nat.lt_irrefl _ hyu
    · obtain rfl : i = 1 := by omega
      exact ⟨hxu, hyu⟩
  exact hpath.not_chordal hsymm ht hchordal

end ChordalAlloc
