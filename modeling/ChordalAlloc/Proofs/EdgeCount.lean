/-
ChordalAlloc/Proofs/EdgeCount.lean

A graph is the set of the unordered pairs that were added to it.

A graph that is built by joining pairs is determined by which nodes are joined
(`ext_adjacent`), hence by the pairs, however they were ordered, turned round or
repeated (`addEdges_congr`).

Edges can be counted while they are added (`CountedGraph`): before a pair is
joined both ways, only one of its two rows is asked whether the pair is new.
That the count is the number of edges in the end, and half the sum of the
degrees, rests on graphs being symmetric after every step: joining a pair that
the one row does not know adds one edge (`edgeCount_addEdge`) and one neighbour
to each of its nodes (`degree_addEdge`), and joining one that it knows changes
nothing in either row (`addEdge_of_adjacent`).
-/
import Mathlib.Algebra.BigOperators.Group.Finset.Piecewise
import Mathlib.Data.Finset.Card
import Mathlib.Data.List.Flatten
import ChordalAlloc.Proofs.Adjacency

namespace ChordalAlloc

namespace Graph

variable {g g' : Graph} {a b : Nat}

/-! ### Which nodes are joined decides everything -/

theorem getElem?_rows (g : Graph) {u : Nat} (hu : u < g.size) :
    g.rows[u]? = some (g.rows.getD u (IndexSet.empty 0)) := by
  rw [Array.getD_eq_getD_getElem?, Array.getElem?_eq_getElem hu, Option.getD_some]

/-- Graphs with as many nodes, joined alike, are equal. -/
theorem ext_adjacent (hg : g.Sound) (hg' : g'.Sound) (hsize : g.size = g'.size)
    (h : ∀ u v, g.adjacent u v = g'.adjacent u v) : g = g' := by
  have hrows : g.rows = g'.rows := by
    refine Array.ext_getElem? fun u => ?_
    rcases Nat.lt_or_ge u g.size with hlt | hge
    · rw [getElem?_rows g hlt, getElem?_rows g' (hsize ▸ hlt), Option.some.injEq]
      refine IndexSet.ext_contains ?_ (h u)
      rw [hg.capacity u hlt, hg'.capacity u (hsize ▸ hlt), hsize]
    · have hge' : g'.rows.size ≤ u := (Nat.le_of_eq hsize.symm).trans hge
      rw [Array.getElem?_eq_none hge, Array.getElem?_eq_none hge']
  obtain ⟨rows⟩ := g
  exact congrArg Graph.mk hrows

/-- A pair that is joined already can be joined again. -/
theorem addEdge_of_adjacent (hg : g.Sound) (hab : g.adjacent a b = true) : g.addEdge a b = g := by
  refine ext_adjacent (hg.addEdge a b) hg (size_addEdge g a b) fun u v => ?_
  rw [Bool.eq_iff_iff, adjacent_addEdge hg]
  refine or_iff_left_of_imp ?_
  rintro ⟨-, ⟨rfl, rfl⟩ | ⟨rfl, rfl⟩⟩
  · exact hab
  · exact hg.symm _ _ hab

/-- The pair was added, one way round or the other. -/
def Added (calls : List (Nat × Nat)) (a b : Nat) : Prop := (a, b) ∈ calls ∨ (b, a) ∈ calls

theorem Added.symm {calls : List (Nat × Nat)} (h : Added calls a b) : Added calls b a := Or.symm h

/-- The pairs of a list that join different nodes are joined, and no others. -/
theorem adjacent_addEdges (n : Nat) (calls : List (Nat × Nat)) (u v : Nat) :
    ((empty n).addEdges calls).adjacent u v = true ↔
      (u ≠ v ∧ u < n ∧ v < n) ∧ Added calls u v := by
  rw [(addEdges_spec (sound_empty n) calls).2.2, adjacent_empty, size_empty]
  exact or_iff_right Bool.false_ne_true

theorem size_addEdges (n : Nat) (calls : List (Nat × Nat)) :
    ((empty n).addEdges calls).size = n :=
  (addEdges_spec (sound_empty n) calls).2.1.trans (size_empty n)

/-- **The pairs decide the graph**, whatever their order and number. -/
theorem addEdges_congr {n : Nat} {calls calls' : List (Nat × Nat)}
    (h : ∀ u v, u < v → v < n → (Added calls' u v ↔ Added calls u v)) :
    (empty n).addEdges calls' = (empty n).addEdges calls := by
  have hpair : ∀ u v, u ≠ v → u < n → v < n → (Added calls' u v ↔ Added calls u v) := by
    intro u v hne hu hv
    rcases Nat.lt_or_gt_of_ne hne with hlt | hgt
    · exact h u v hlt hv
    · have hvu := h v u hgt hu
      exact ⟨fun huv => (hvu.1 huv.symm).symm, fun huv => (hvu.2 huv.symm).symm⟩
  refine ext_adjacent (addEdges_spec (sound_empty n) calls').1
    (addEdges_spec (sound_empty n) calls).1 ?_ fun u v => ?_
  · rw [size_addEdges, size_addEdges]
  · rw [Bool.eq_iff_iff, adjacent_addEdges, adjacent_addEdges]
    exact and_congr_right fun huv => hpair u v huv.1 huv.2.1 huv.2.2

/-! ### The edges in order -/

/-- Pairs in the order of a dictionary. -/
def Precedes (e f : Nat × Nat) : Prop := e.1 < f.1 ∨ e.1 = f.1 ∧ e.2 < f.2

theorem pairwise_edges (g : Graph) : g.edges.Pairwise Precedes := by
  rw [edges, List.pairwise_flatMap]
  constructor
  · intro u _
    rw [List.pairwise_map]
    exact ((IndexSet.pairwise_toList _).filter _).imp fun hlt => .inr ⟨rfl, hlt⟩
  · refine List.pairwise_lt_range.imp fun hlt e he f hf => ?_
    obtain ⟨v, -, rfl⟩ := List.mem_map.1 he
    obtain ⟨w, -, rfl⟩ := List.mem_map.1 hf
    exact .inl hlt

/-- Nodes are joined exactly if they are an edge, one way round or the other. -/
theorem Sound.adjacent_iff (hg : g.Sound) :
    g.adjacent a b = true ↔ (a, b) ∈ g.edges ∨ (b, a) ∈ g.edges := by
  rw [mem_edges, mem_edges]
  constructor
  · intro h
    exact (Nat.lt_or_gt_of_ne (hg.ne h)).imp (fun hlt => ⟨h, hlt⟩) fun hgt => ⟨hg.symm a b h, hgt⟩
  · rintro (⟨h, -⟩ | ⟨h, -⟩)
    · exact h
    · exact hg.symm b a h

/-- The edges are the pairs of different nodes that were added. -/
theorem mem_edges_addEdges {n : Nat} {calls : List (Nat × Nat)} :
    (a, b) ∈ ((empty n).addEdges calls).edges ↔ a < b ∧ b < n ∧ Added calls a b := by
  rw [mem_edges, adjacent_addEdges]
  constructor
  · rintro ⟨⟨⟨-, -, hb⟩, h⟩, hlt⟩
    exact ⟨hlt, hb, h⟩
  · rintro ⟨hlt, hb, h⟩
    exact ⟨⟨⟨Nat.ne_of_lt hlt, hlt.trans hb, hb⟩, h⟩, hlt⟩

theorem nodup_edges (g : Graph) : g.edges.Nodup := by
  refine g.pairwise_edges.imp fun h heq => ?_
  subst heq
  rcases h with h | ⟨-, h⟩
  · exact Nat.lt_irrefl _ h
  · exact Nat.lt_irrefl _ h

theorem edgeCount_eq_card (g : Graph) : g.edgeCount = g.edges.toFinset.card :=
  (List.toFinset_card_of_nodup g.nodup_edges).symm

/-! ### A new edge -/

section New

variable (hg : g.Sound) (hne : a ≠ b) (ha : a < g.size) (hb : b < g.size)
  (hnew : g.adjacent a b = false)

include hg hne ha hb hnew

/-- A new pair is one more edge. -/
theorem edgeCount_addEdge : (g.addEdge a b).edgeCount = g.edgeCount + 1 := by
  have hpair : (min a b, max a b) ∉ g.edges.toFinset := by
    rw [List.mem_toFinset, mem_edges]
    rintro ⟨hadj, -⟩
    rcases Nat.lt_or_gt_of_ne hne with hlt | hgt
    · rw [Nat.min_eq_left hlt.le, Nat.max_eq_right hlt.le, hnew] at hadj
      cases hadj
    · rw [Nat.min_eq_right hgt.le, Nat.max_eq_left hgt.le] at hadj
      rw [hg.symm b a hadj] at hnew
      cases hnew
  have hedges : (g.addEdge a b).edges.toFinset =
      insert (min a b, max a b) g.edges.toFinset := by
    ext ⟨u, v⟩
    rw [Finset.mem_insert, List.mem_toFinset, List.mem_toFinset, mem_edges, mem_edges,
      adjacent_addEdge hg, Prod.mk.injEq]
    constructor
    · rintro ⟨h | ⟨-, ⟨rfl, rfl⟩ | ⟨rfl, rfl⟩⟩, hlt⟩
      · exact .inr ⟨h, hlt⟩
      · exact .inl ⟨(Nat.min_eq_left hlt.le).symm, (Nat.max_eq_right hlt.le).symm⟩
      · exact .inl ⟨(Nat.min_eq_right hlt.le).symm, (Nat.max_eq_left hlt.le).symm⟩
    · rintro (⟨rfl, rfl⟩ | ⟨h, hlt⟩)
      · rcases Nat.lt_or_gt_of_ne hne with hlt | hgt
        · rw [Nat.min_eq_left hlt.le, Nat.max_eq_right hlt.le]
          exact ⟨.inr ⟨⟨hne, ha, hb⟩, .inl ⟨rfl, rfl⟩⟩, hlt⟩
        · rw [Nat.min_eq_right hgt.le, Nat.max_eq_left hgt.le]
          exact ⟨.inr ⟨⟨hne, ha, hb⟩, .inr ⟨rfl, rfl⟩⟩, hgt⟩
      · exact ⟨.inl h, hlt⟩
  rw [edgeCount_eq_card, hedges, Finset.card_insert_of_notMem hpair, edgeCount_eq_card]

/-- A new pair is one more neighbour for each of its nodes. -/
theorem degree_addEdge (u : Nat) :
    (g.addEdge a b).degree u =
      g.degree u + ((if u = a then 1 else 0) + if u = b then 1 else 0) := by
  have hnew' : g.adjacent b a = false := by
    rw [← Bool.not_eq_true]
    intro h
    rw [hg.symm b a h] at hnew
    cases hnew
  rw [degree, row_addEdge (not_or.2 ⟨hne, not_or.2 ⟨Nat.not_le.2 ha, Nat.not_le.2 hb⟩⟩)]
  by_cases hua : u = a
  · subst hua
    rw [if_pos rfl, if_pos rfl, if_neg hne]
    exact IndexSet.size_insert (hg.capacity u ha ▸ hb) hnew
  · rw [if_neg hua, if_neg hua]
    by_cases hub : u = b
    · subst hub
      rw [if_pos rfl, if_pos rfl, IndexSet.size_insert (hg.capacity u hb ▸ ha) hnew', degree,
        Nat.zero_add]
    · rw [if_neg hub, if_neg hub]
      rfl

theorem sum_degree_addEdge :
    ∑ u ∈ Finset.range g.size, (g.addEdge a b).degree u =
      ∑ u ∈ Finset.range g.size, g.degree u + 2 := by
  simp only [degree_addEdge hg hne ha hb hnew, Finset.sum_add_distrib]
  rw [Finset.sum_ite_eq', Finset.sum_ite_eq', if_pos (Finset.mem_range.2 ha),
    if_pos (Finset.mem_range.2 hb)]

end New

/-- A pair leaves the graph as it is, or it is new. -/
theorem addEdge_cases (hg : g.Sound) (a b : Nat) :
    g.addEdge a b = g ∨ a ≠ b ∧ a < g.size ∧ b < g.size ∧ g.adjacent a b = false := by
  by_cases hab : a = b ∨ g.size ≤ a ∨ g.size ≤ b
  · exact .inl (if_pos hab)
  · by_cases hadj : g.adjacent a b = true
    · exact .inl (addEdge_of_adjacent hg hadj)
    · simp only [not_or, Nat.not_le] at hab
      exact .inr ⟨hab.1, hab.2.1, hab.2.2, Bool.eq_false_of_not_eq_true hadj⟩

theorem degree_empty (n u : Nat) : (empty n).degree u = 0 := by
  refine List.length_eq_zero_iff.2 (List.eq_nil_iff_forall_not_mem.2 fun v hv => ?_)
  have hadj : (empty n).adjacent u v = true := mem_neighbors.1 hv
  rw [adjacent_empty] at hadj
  cases hadj

theorem edgeCount_empty (n : Nat) : (empty n).edgeCount = 0 := by
  refine List.length_eq_zero_iff.2 (List.eq_nil_iff_forall_not_mem.2 fun e he => ?_)
  have hadj := (mem_edges.1 he).1
  rw [adjacent_empty] at hadj
  cases hadj

/-- **Every edge is counted at both of its ends.** -/
theorem Reached.sum_degree (h : g.Reached) :
    ∑ u ∈ Finset.range g.size, g.degree u = 2 * g.edgeCount := by
  induction h with
  | empty n => rw [Finset.sum_eq_zero fun u _ => degree_empty n u, edgeCount_empty, Nat.mul_zero]
  | @addEdge g a b hg ih =>
    rw [size_addEdge]
    rcases addEdge_cases hg.sound a b with hsame | ⟨hne, ha, hb, hnew⟩
    · rw [hsame, ih]
    · rw [sum_degree_addEdge hg.sound hne ha hb hnew, ih,
        edgeCount_addEdge hg.sound hne ha hb hnew, Nat.mul_succ]

end Graph

/-! ### Counting while adding -/

/-- A graph with the number of its edges, kept up to date. -/
structure CountedGraph where
  /-- The neighbours of each node. -/
  rows : Array IndexSet
  /-- How many edges were added. -/
  count : Nat
deriving DecidableEq

namespace CountedGraph

/-- The graph of `n` nodes without edges. -/
def empty (n : Nat) : CountedGraph := ⟨Array.replicate n (IndexSet.empty n), 0⟩

/-- Join two different nodes that exist.  The row of the first one says whether they are joined
already; if not, both rows are changed and the edge is counted. -/
def addEdge (g : CountedGraph) (a b : Nat) : CountedGraph :=
  if a = b ∨ g.rows.size ≤ a ∨ g.rows.size ≤ b then g
  else if (g.rows.getD a (IndexSet.empty 0)).contains b then g
  else ⟨(g.rows.modify a (·.insert b)).modify b (·.insert a), g.count + 1⟩

/-- Join all pairs of a list. -/
def addEdges (g : CountedGraph) (pairs : List (Nat × Nat)) : CountedGraph :=
  pairs.foldl (fun g e => g.addEdge e.1 e.2) g

/-- A graph with the number of its edges. -/
def ofGraph (g : Graph) : CountedGraph := ⟨g.rows, g.edgeCount⟩

/-- Asking one row is enough. -/
theorem addEdge_ofGraph {g : Graph} (hg : g.Sound) (a b : Nat) :
    (ofGraph g).addEdge a b = ofGraph (g.addEdge a b) := by
  by_cases hab : a = b ∨ g.size ≤ a ∨ g.size ≤ b
  · rw [addEdge, Graph.addEdge, if_pos hab]
    exact if_pos hab
  · have hstep : (ofGraph g).addEdge a b = if g.adjacent a b then ofGraph g
        else ⟨(g.rows.modify a (·.insert b)).modify b (·.insert a), g.edgeCount + 1⟩ := if_neg hab
    rw [hstep]
    split
    · next hadj => rw [Graph.addEdge_of_adjacent hg hadj]
    · next hadj =>
      have hnew := Bool.eq_false_of_not_eq_true hadj
      obtain ⟨hne, hab'⟩ := not_or.1 hab
      obtain ⟨ha, hb⟩ := not_or.1 hab'
      rw [← Graph.edgeCount_addEdge hg hne (Nat.not_le.1 ha) (Nat.not_le.1 hb) hnew, ofGraph,
        Graph.addEdge, if_neg hab]

theorem addEdges_ofGraph {g : Graph} (hg : g.Sound) (pairs : List (Nat × Nat)) :
    (ofGraph g).addEdges pairs = ofGraph (g.addEdges pairs) := by
  induction pairs generalizing g with
  | nil => rfl
  | cons e pairs ih =>
    rw [addEdges, List.foldl_cons, addEdge_ofGraph hg]
    exact ih (hg.addEdge e.1 e.2)

theorem empty_eq (n : Nat) : empty n = ofGraph (Graph.empty n) := by
  rw [ofGraph, Graph.edgeCount_empty]
  rfl

/-- The graph that counts is the graph with the number of its edges. -/
theorem addEdges_eq (n : Nat) (pairs : List (Nat × Nat)) :
    (empty n).addEdges pairs = ofGraph ((Graph.empty n).addEdges pairs) := by
  rw [empty_eq, addEdges_ofGraph (Graph.sound_empty n)]

/-- The pairs decide the count as well. -/
theorem addEdges_congr {n : Nat} {calls calls' : List (Nat × Nat)}
    (h : ∀ a b, a < b → b < n → (Graph.Added calls' a b ↔ Graph.Added calls a b)) :
    (empty n).addEdges calls' = (empty n).addEdges calls := by
  rw [addEdges_eq, addEdges_eq, Graph.addEdges_congr h]

end CountedGraph

/-- **A graph is the set of the unordered pairs that were added.**  Whatever pairs are added to a
graph of `n` nodes: nodes are joined both ways, never to themselves, and exist; the edges are listed
in ascending order and are the pairs of different nodes that were added in either direction; the
number of edges that was kept on the way is the length of that list, and the degrees add up to twice
of it.  Hence adding the same pairs in any order, direction and number gives an equal graph, and
pairs that come in batches may be added batch by batch in any order. -/
theorem Graph.addEdges_pairs (n : Nat) (calls : List (Nat × Nat)) :
    ∃ g, (Graph.empty n).addEdges calls = g ∧
      (CountedGraph.empty n).addEdges calls = ⟨g.rows, g.edges.length⟩ ∧ g.size = n ∧
      (∀ a b, g.adjacent a b = true → g.adjacent b a = true ∧ a ≠ b ∧ a < n ∧ b < n) ∧
      (∀ a b, g.adjacent a b = true ↔ (a, b) ∈ g.edges ∨ (b, a) ∈ g.edges) ∧
      g.edges.Pairwise Precedes ∧
      (∀ a b, (a, b) ∈ g.edges ↔ a < b ∧ b < n ∧ Added calls a b) ∧
      g.edgeCount = g.edges.length ∧
      ∑ a ∈ Finset.range n, g.degree a = 2 * g.edgeCount ∧
      (∀ calls', (∀ a b, a < b → b < n → (Added calls' a b ↔ Added calls a b)) →
        (CountedGraph.empty n).addEdges calls' = (CountedGraph.empty n).addEdges calls) ∧
      ∀ batches batches' : List (List (Nat × Nat)), batches.flatten = calls →
        batches'.Perm batches →
        (CountedGraph.empty n).addEdges batches'.flatten =
          (CountedGraph.empty n).addEdges calls := by
  have hsound := (addEdges_spec (sound_empty n) calls).1
  have hsum := ((Reached.empty n).addEdges calls).sum_degree
  rw [size_addEdges] at hsum
  refine ⟨_, rfl, CountedGraph.addEdges_eq n calls, size_addEdges n calls, fun a b hab => ?_,
    fun a b => hsound.adjacent_iff, pairwise_edges _, fun a b => mem_edges_addEdges, rfl, hsum,
    fun calls' => CountedGraph.addEdges_congr, ?_⟩
  · obtain ⟨hne, ha, hb⟩ := ((adjacent_addEdges n calls a b).1 hab).1
    exact ⟨hsound.symm a b hab, hne, ha, hb⟩
  · rintro batches batches' rfl hperm
    refine CountedGraph.addEdges_congr fun a b _ _ => ?_
    rw [Added, Added, hperm.flatten.mem_iff, hperm.flatten.mem_iff]

end ChordalAlloc
