/-
ChordalAlloc/Proofs/CardinalityOrder.lean

The order of a maximum cardinality search.

At every moment of the search the nodes visited are different, and a node
that was not visited weighs as much as the visited ones point to it
(`Sweep.Tally`).  The heaviest node is therefore one that they point to most
often, and the smallest of those (`Sweep.Tally.heaviest_spec`).  The nodes
asked for are visited as they come (`Sweep.start_spec`), and from then on every
node is a best choice after those before it (`Picks`), until the search ends
because no node is left (`Sweep.Tally.run_spec`).

`cardinalityOrder_spec` says all of this about the finished order.  What
colouring needs of it are `cardinalityOrder_nodup`, `mem_cardinalityOrder` and
`cardinalityOrder_led`.
-/
import Mathlib.Data.Finset.Card
import Mathlib.Data.List.Basic
import ChordalAlloc.Digraph.CardinalityOrder
import ChordalAlloc.Proofs.Checks

namespace ChordalAlloc

namespace Digraph

/-- How often the given nodes point to a node. -/
def pointing (g : Digraph) (us : List Nat) (v : Nat) : Nat := (us.flatMap g.next).count v

/-- Of the nodes that are not among the given ones, these point to `u` most often, and to no
smaller one as often. -/
def BestAfter (g : Digraph) (us : List Nat) (u : Nat) : Prop :=
  ∀ v, v < g.size → v ∉ us →
    g.pointing us v ≤ g.pointing us u ∧ (g.pointing us v = g.pointing us u → u ≤ v)

/-- One after the other, the nodes of `rest` are a best choice after those of `us` and the ones of
`rest` before them. -/
def Picks (g : Digraph) (us rest : List Nat) : Prop :=
  ∀ before u after, rest = before ++ u :: after → g.BestAfter (us ++ before) u

theorem pointing_reverse (g : Digraph) (us : List Nat) : g.pointing us.reverse = g.pointing us := by
  funext v
  exact (us.reverse_perm.flatMap_right g.next).count_eq v

theorem BestAfter.reverse {g : Digraph} {us : List Nat} {u : Nat} (h : g.BestAfter us u) :
    g.BestAfter us.reverse u := by
  intro v hv hmem
  rw [pointing_reverse]
  exact h v hv (fun hus => hmem (List.mem_reverse.2 hus))

theorem Picks.nil (g : Digraph) (us : List Nat) : g.Picks us [] := fun before u after h =>
  absurd h.symm (List.append_ne_nil_of_right_ne_nil before (List.cons_ne_nil u after))

theorem Picks.cons {g : Digraph} {us rest : List Nat} {u : Nat} (hu : g.BestAfter us u)
    (h : g.Picks (us ++ [u]) rest) : g.Picks us (u :: rest) := by
  intro before v after heq
  rcases before with - | ⟨w, before⟩
  · obtain ⟨rfl, -⟩ := List.cons.inj heq
    rwa [List.append_nil]
  · obtain ⟨rfl, hrest⟩ := List.cons.inj heq
    have := h before v after hrest
    rwa [List.append_assoc] at this

namespace Sweep

variable {g : Digraph} {s : Sweep} {u : Nat}

/-! ### One visit -/

theorem size_foldl_modify (vs : List Nat) (w : Array (Option Nat)) :
    (vs.foldl (fun w v => w.modify v (·.map (· + 1))) w).size = w.size := by
  induction vs generalizing w with
  | nil => rfl
  | cons v vs ih => rw [List.foldl_cons, ih, Array.size_modify]

/-- Counting edges adds to a weight how often its node is named. -/
theorem join_foldl_modify (vs : List Nat) (w : Array (Option Nat)) (u : Nat) :
    ((vs.foldl (fun w v => w.modify v (·.map (· + 1))) w)[u]?).join
      = (w[u]?).join.map (· + vs.count u) := by
  induction vs generalizing w with
  | nil => simp
  | cons v vs ih =>
    rw [List.foldl_cons, ih, Array.getElem?_modify, List.count_cons]
    by_cases hvu : v = u
    · subst hvu
      rcases w[v]? with - | - | x <;> simp [Nat.add_comm, Nat.add_left_comm]
    · simp [hvu]

theorem size_visit (g : Digraph) (s : Sweep) (u : Nat) :
    (s.visit g u).weight.size = s.weight.size := by
  rw [visit, size_foldl_modify, Array.size_setIfInBounds]

theorem weight?_visit (g : Digraph) (s : Sweep) (u v : Nat) :
    (s.visit g u).weight? v =
      if u = v then none else (s.weight? v).map (· + (g.next u).count v) := by
  rw [weight?, visit, join_foldl_modify, Array.getElem?_setIfInBounds]
  by_cases huv : u = v
  · rw [if_pos huv, if_pos huv]
    split <;> rfl
  · rw [if_neg huv, if_neg huv, weight?]

/-- The nodes visited are different, and the weights tell how often they point to the others. -/
structure Tally (g : Digraph) (s : Sweep) : Prop where
  size : s.weight.size = g.size
  nodup : s.visited.Nodup
  lt : ∀ u ∈ s.visited, u < g.size
  weight : ∀ u, u < g.size →
    s.weight? u = if u ∈ s.visited then none else some (g.pointing s.visited u)

theorem tally_start (g : Digraph) : (start g).Tally g where
  size := Array.size_replicate
  nodup := List.nodup_nil
  lt _ hu := absurd hu List.not_mem_nil
  weight u hu := by
    rw [weight?, start, Array.getElem?_replicate, if_pos hu]
    rfl

/-- A node has a weight as long as it was not visited. -/
theorem Tally.isSome_weight? (h : s.Tally g) :
    (s.weight? u).isSome = true ↔ u < g.size ∧ u ∉ s.visited := by
  by_cases hu : u < g.size
  · rw [h.weight u hu]
    split <;> simp [*]
  · rw [weight?, Array.getElem?_eq_none (by rw [h.size]; omega)]
    simp [hu]

theorem Tally.visit (h : s.Tally g) (hu : (s.weight? u).isSome = true) : (s.visit g u).Tally g := by
  obtain ⟨hlt, hnew⟩ := h.isSome_weight?.1 hu
  refine ⟨(size_visit g s u).trans h.size, List.nodup_cons.2 ⟨hnew, h.nodup⟩,
    List.forall_mem_cons.2 ⟨hlt, h.lt⟩, fun v hv => ?_⟩
  rw [weight?_visit, h.weight v hv]
  show _ = if v ∈ u :: s.visited then none else some (g.pointing (u :: s.visited) v)
  by_cases huv : u = v
  · rw [if_pos huv, if_pos (huv ▸ List.mem_cons_self)]
  · rw [if_neg huv]
    by_cases hv' : v ∈ s.visited
    · rw [if_pos hv', if_pos (List.mem_cons_of_mem u hv')]
      rfl
    · rw [if_neg hv', if_neg (by simp [Ne.symm huv, hv'])]
      simp [pointing, Nat.add_comm]

/-! ### The heaviest node -/

/-- What is found among the nodes below `n`: nothing if none has a weight, and the smallest of
the heaviest ones otherwise. -/
def Best (s : Sweep) (n : Nat) : Option (Nat × Nat) → Prop
  | none => ∀ v, v < n → s.weight? v = none
  | some (b, most) => b < n ∧ s.weight? b = some most ∧
      ∀ v w, v < n → s.weight? v = some w → w ≤ most ∧ (w = most → b ≤ v)

theorem Best.better {best : Option (Nat × Nat)} {n : Nat} (h : s.Best n best) :
    s.Best (n + 1) (s.better best n) := by
  have hsplit : ∀ {v}, v < n + 1 → v < n ∨ v = n := Nat.lt_succ_iff_lt_or_eq.1
  rcases hn : s.weight? n with - | x
  · rcases best with - | ⟨b, most⟩ <;> simp only [Sweep.better, hn]
    · intro v hv
      rcases hsplit hv with hlt | rfl
      exacts [h v hlt, hn]
    · refine ⟨h.1.trans (Nat.lt_succ_self n), h.2.1, fun v w hv hw => ?_⟩
      rcases hsplit hv with hlt | rfl
      · exact h.2.2 v w hlt hw
      · rw [hn] at hw
        cases hw
  · rcases best with - | ⟨b, most⟩ <;> simp only [Sweep.better, hn]
    · refine ⟨Nat.lt_succ_self n, hn, fun v w hv hw => ?_⟩
      rcases hsplit hv with hlt | rfl
      · rw [h v hlt] at hw
        cases hw
      · rw [hn] at hw
        cases hw
        exact ⟨Nat.le_refl _, fun _ => Nat.le_refl _⟩
    · obtain ⟨hb, hmost, hall⟩ := h
      split
      · next hless =>
        refine ⟨Nat.lt_succ_self n, hn, fun v w hv hw => ?_⟩
        rcases hsplit hv with hlt | rfl
        · have := (hall v w hlt hw).1
          omega
        · rw [hn] at hw
          cases hw
          exact ⟨Nat.le_refl _, fun _ => Nat.le_refl _⟩
      · next hmore =>
        -- a later node that weighs as much does not take its place
        refine ⟨hb.trans (Nat.lt_succ_self n), hmost, fun v w hv hw => ?_⟩
        rcases hsplit hv with hlt | rfl
        · exact hall v w hlt hw
        · rw [hn] at hw
          cases hw
          exact ⟨Nat.le_of_not_lt hmore, fun _ => Nat.le_of_lt hb⟩

theorem best_foldl (s : Sweep) (n : Nat) : s.Best n ((List.range n).foldl s.better none) := by
  induction n with
  | zero => exact fun v hv => absurd hv (Nat.not_lt_zero v)
  | succ n ih =>
    rw [List.range_succ, List.foldl_append]
    exact ih.better

/-- The heaviest node was not visited, and the visited ones point to no other more often. -/
theorem Tally.heaviest_spec (h : s.Tally g) (hu : s.heaviest = some u) :
    (s.weight? u).isSome = true ∧ g.BestAfter s.visited u := by
  obtain ⟨⟨b, most⟩, hfold, rfl⟩ := Option.map_eq_some_iff.1 hu
  have hbest := best_foldl s s.weight.size
  rw [hfold] at hbest
  obtain ⟨hlt, hmost, hall⟩ := hbest
  rw [h.size] at hlt hall
  have hsome : (s.weight? b).isSome = true := by rw [hmost, Option.isSome_some]
  refine ⟨hsome, fun v hv hnew => ?_⟩
  have hb : s.weight? b = some (g.pointing s.visited b) := by
    rw [h.weight b hlt, if_neg (h.isSome_weight?.1 hsome).2]
  obtain rfl : g.pointing s.visited b = most := Option.some.inj (hb.symm.trans hmost)
  exact hall v _ hv (by rw [h.weight v hv, if_neg hnew])

theorem Tally.mem_visited_of_heaviest (h : s.Tally g) (hnone : s.heaviest = none)
    (hu : u < g.size) : u ∈ s.visited := by
  have hbest := best_foldl s s.weight.size
  rw [Option.map_eq_none_iff.1 hnone, h.size] at hbest
  by_contra hnew
  have hw := hbest u hu
  rw [h.weight u hu, if_neg hnew] at hw
  cases hw

/-! ### The nodes asked for -/

theorem Tally.visitNew (h : s.Tally g) (v : Nat) :
    (s.visitNew g v).Tally g ∧ (s.visitNew g v).visited =
      if v < g.size ∧ v ∉ s.visited then v :: s.visited else s.visited := by
  unfold Sweep.visitNew
  split
  · next hv =>
    rw [if_pos (h.isSome_weight?.1 hv)]
    exact ⟨h.visit hv, rfl⟩
  · next hv =>
    rw [if_neg fun hnew => hv (h.isSome_weight?.2 hnew)]
    exact ⟨h, rfl⟩

/-- Of the nodes asked for, those that exist are visited as they come, repeats left out. -/
theorem start_spec (g : Digraph) (first : List Nat) :
    let s := first.foldl (visitNew g) (start g)
    s.Tally g ∧ s.visited.reverse = (first.filter (· < g.size)).eraseDups := by
  induction first using List.reverseRecOn with
  | nil => exact ⟨tally_start g, rfl⟩
  | append_singleton first v ih =>
    rw [List.foldl_append, List.foldl_cons, List.foldl_nil]
    obtain ⟨htally, hvisited⟩ := ih
    obtain ⟨htally', hvisit⟩ := htally.visitNew v
    refine ⟨htally', ?_⟩
    have hmem : v ∈ (first.foldl (Sweep.visitNew g) (start g)).visited ↔
        v ∈ first.filter (· < g.size) := by
      rw [← List.mem_reverse, hvisited, List.mem_eraseDups]
    rw [hvisit, List.filter_append]
    by_cases hv : v < g.size
    · rw [show [v].filter (· < g.size) = [v] by simp [hv], eraseDups_concat]
      by_cases hold : v ∈ first.filter (· < g.size)
      · rw [if_neg fun hnew => hnew.2 (hmem.2 hold), if_pos hold, hvisited]
      · rw [if_pos ⟨hv, fun hvis => hold (hmem.1 hvis)⟩, if_neg hold, List.reverse_cons, hvisited]
    · rw [show [v].filter (· < g.size) = [] by simp [hv], if_neg fun hnew => hv hnew.1,
        List.append_nil, hvisited]

/-! ### The whole search -/

/-- One round of the search, which ends when no node is left. -/
def next (g : Digraph) (s : Sweep) : Option Sweep := s.heaviest.map (s.visit g)

/-- When all nodes were visited, none is left to go on with. -/
theorem Tally.heaviest_eq_none (h : s.Tally g) (hall : ∀ u, u < g.size → u ∈ s.visited) :
    s.heaviest = none := by
  rcases hu : s.heaviest with - | u
  · rfl
  · obtain ⟨hlt, hnew⟩ := h.isSome_weight?.1 (h.heaviest_spec hu).1
    exact absurd (hall u hlt) hnew

/-- As many different nodes as there are leave none out. -/
theorem Tally.mem_visited_of_length (h : s.Tally g) (hlen : g.size ≤ s.visited.length)
    (hu : u < g.size) : u ∈ s.visited := by
  have hsub : s.visited.toFinset ⊆ Finset.range g.size := fun v hv =>
    Finset.mem_range.2 (h.lt v (List.mem_toFinset.1 hv))
  have hall := Finset.eq_of_subset_of_card_le hsub (by
    rw [Finset.card_range, List.toFinset_card_of_nodup h.nodup]
    exact hlen)
  exact List.mem_toFinset.1 (hall ▸ Finset.mem_range.2 hu)

/-- The search without a bound on its rounds ends, in the state in which the bounded one stops.
It keeps the tally, leaves no node out, and takes a best choice each time. -/
theorem Tally.run_spec {k : Nat} (h : s.Tally g) (hk : g.size ≤ s.visited.length + k) :
    run g k s ∈ StateTransition.eval (next g) s ∧ (run g k s).Tally g ∧
      (∀ u, u < g.size → u ∈ (run g k s).visited) ∧
      ∃ rest, (run g k s).visited.reverse = s.visited.reverse ++ rest ∧
        g.Picks s.visited.reverse rest := by
  induction k generalizing s with
  | zero =>
    have hall := fun u => @Tally.mem_visited_of_length g s u h hk
    refine ⟨mem_eval_of_none ?_, h, hall, [], (List.append_nil _).symm, .nil g _⟩
    rw [next, h.heaviest_eq_none hall, Option.map_none]
  | succ k ih =>
    rw [run]
    split
    · next hnone =>
      refine ⟨mem_eval_of_none ?_, h, fun u hu => h.mem_visited_of_heaviest hnone hu, [],
        (List.append_nil _).symm, .nil g _⟩
      rw [next, hnone, Option.map_none]
    · next v hv =>
      obtain ⟨hsome, hbest⟩ := h.heaviest_spec hv
      have hvisited : (s.visit g v).visited.reverse = s.visited.reverse ++ [v] :=
        List.reverse_cons
      obtain ⟨heval, htally, hall, rest, hrest, hpicks⟩ := ih (h.visit hsome) (by
        show g.size ≤ (v :: s.visited).length + k
        rw [List.length_cons]
        omega)
      refine ⟨mem_eval_of_some ?_ heval, htally, hall, v :: rest, ?_, ?_⟩
      · rw [next, hv, Option.map_some]
      · rw [hrest, hvisited, List.append_assoc]
        rfl
      · rw [hvisited] at hpicks
        exact hpicks.cons hbest.reverse

end Sweep

variable (g : Digraph) (first : List Nat)

theorem cardinalityOrder_spec :
    ∃ s ∈ StateTransition.eval (Sweep.next g) (first.foldl (Sweep.visitNew g) (Sweep.start g)),
      g.cardinalityOrder first = s.visited.reverse ∧ s.Tally g ∧
      (∀ u, u < g.size → u ∈ s.visited) ∧
      ∃ rest, g.cardinalityOrder first = (first.filter (· < g.size)).eraseDups ++ rest ∧
        g.Picks (first.filter (· < g.size)).eraseDups rest := by
  obtain ⟨htally, hvisited⟩ := Sweep.start_spec g first
  obtain ⟨heval, hfinal, hall, hrest⟩ := htally.run_spec (Nat.le_add_left g.size _)
  rw [hvisited] at hrest
  exact ⟨_, heval, rfl, hfinal, hall, hrest⟩

theorem cardinalityOrder_nodup : (g.cardinalityOrder first).Nodup := by
  obtain ⟨s, -, hs, htally, -⟩ := cardinalityOrder_spec g first
  rw [hs]
  exact List.nodup_reverse.2 htally.nodup

/-- **Every node is visited**, whichever nodes come first. -/
theorem mem_cardinalityOrder {u : Nat} : u ∈ g.cardinalityOrder first ↔ u < g.size := by
  obtain ⟨s, -, hs, htally, hall, -⟩ := cardinalityOrder_spec g first
  rw [hs, List.mem_reverse]
  exact ⟨htally.lt u, hall u⟩

/-- **The nodes asked for come first, and each of the others is a best choice.** -/
theorem cardinalityOrder_led {before after : List Nat} {u : Nat}
    (h : g.cardinalityOrder first = before ++ u :: after) :
    (∀ a, a = u ∨ a ∈ before → a ∈ first) ∨
      (∀ a ∈ first, a < g.size → a ∈ before) ∧ g.BestAfter before u := by
  obtain ⟨s, -, -, -, -, rest, hrest, hpicks⟩ := cardinalityOrder_spec g first
  have hmem : ∀ a, a ∈ (first.filter (· < g.size)).eraseDups ↔ a ∈ first ∧ a < g.size := by
    intro a
    rw [List.mem_eraseDups, List.mem_filter, decide_eq_true_eq]
  rw [h] at hrest
  -- the node stands behind all that were asked for, or is one of them
  rcases List.append_eq_append_iff.1 hrest with ⟨more, hasked, hafter⟩ | ⟨picked, rfl, hafter⟩
  · rcases more with - | ⟨w, more⟩
    · rw [List.append_nil] at hasked
      have := hpicks [] u after hafter.symm
      rw [hasked, List.append_nil] at this
      exact .inr ⟨fun a ha hlt => hasked ▸ (hmem a).2 ⟨ha, hlt⟩, this⟩
    · obtain ⟨rfl, -⟩ := List.cons.inj hafter
      refine .inl fun a ha => ((hmem a).1 ?_).1
      rw [hasked, List.mem_append, List.mem_cons]
      exact ha.elim (fun ha => .inr (.inl ha)) .inl
  · refine .inr ⟨fun a ha hlt => List.mem_append_left _ ((hmem a).2 ⟨ha, hlt⟩), ?_⟩
    exact hpicks picked u after hafter

end Digraph

end ChordalAlloc
