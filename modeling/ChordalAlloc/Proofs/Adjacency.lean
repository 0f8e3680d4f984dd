/-
ChordalAlloc/Proofs/Adjacency.lean

A graph is the relation that says which nodes are joined.

`Graph.Sound` is what every graph built by joining pairs has
(`Graph.Reached.sound`): rows have room for every node, and nodes are joined
both ways and never to themselves.  Under it, joining a pair adds that pair
both ways and nothing else (`adjacent_addEdge`), a list of pairs adds its
pairs (`addEdges_spec`), and the neighbours and the edges list the relation.
-/
import Mathlib.Data.List.Basic
import ChordalAlloc.Graph

namespace ChordalAlloc

namespace Graph

/-- What holds of every graph built by joining pairs. -/
structure Sound (g : Graph) : Prop where
  capacity : ∀ a, a < g.size → (g.rows.getD a (IndexSet.empty 0)).capacity = g.size
  symm : ∀ a b, g.adjacent a b = true → g.adjacent b a = true
  irrefl : ∀ a, g.adjacent a a = false

variable {g : Graph} {a b u v : Nat}

theorem lt_size_of_adjacent (h : g.adjacent a b = true) : a < g.size := by
  by_contra hge
  simp [adjacent, Array.getD_eq_getD_getElem?, Array.getElem?_eq_none (Nat.le_of_not_lt hge)] at h

theorem Sound.lt_size (hg : g.Sound) (h : g.adjacent a b = true) : b < g.size :=
  lt_size_of_adjacent (hg.symm a b h)

theorem Sound.ne (hg : g.Sound) (h : g.adjacent a b = true) : a ≠ b := by
  rintro rfl
  rw [hg.irrefl] at h
  cases h

theorem mem_neighbors : b ∈ g.neighbors a ↔ g.adjacent a b = true := IndexSet.mem_toList

theorem mem_edges : (a, b) ∈ g.edges ↔ g.adjacent a b = true ∧ a < b := by
  simp only [edges, List.mem_flatMap, List.mem_range, List.mem_map, List.mem_filter,
    decide_eq_true_eq, mem_neighbors, Prod.mk.injEq]
  constructor
  · rintro ⟨x, -, y, h, rfl, rfl⟩
    exact h
  · rintro h
    exact ⟨a, lt_size_of_adjacent h.1, b, h, rfl, rfl⟩

/-! ### Joining pairs -/

@[simp] theorem size_empty (n : Nat) : (empty n).size = n := Array.size_replicate

theorem adjacent_empty (n a b : Nat) : (empty n).adjacent a b = false := by
  rw [adjacent, empty, Array.getD_eq_getD_getElem?, Array.getElem?_replicate]
  split <;> exact IndexSet.contains_empty _ b

theorem sound_empty (n : Nat) : (empty n).Sound where
  capacity a ha := by
    rw [size_empty] at ha ⊢
    simp [empty, Array.getD_eq_getD_getElem?, ha]
  symm a b h := by rw [adjacent_empty] at h; cases h
  irrefl a := adjacent_empty n a a

@[simp] theorem size_addEdge (g : Graph) (a b : Nat) : (g.addEdge a b).size = g.size := by
  unfold addEdge
  split <;> simp [size]

theorem row_addEdge (hab : ¬(a = b ∨ g.size ≤ a ∨ g.size ≤ b)) (u : Nat) :
    (g.addEdge a b).rows.getD u (IndexSet.empty 0) =
      if u = a then (g.rows.getD u (IndexSet.empty 0)).insert b
      else if u = b then (g.rows.getD u (IndexSet.empty 0)).insert a
      else g.rows.getD u (IndexSet.empty 0) := by
  rw [addEdge, if_neg hab]
  simp only [not_or, Nat.not_le] at hab
  obtain ⟨hne, ha, hb⟩ := hab
  simp only [size] at ha hb
  simp only [Array.getD_eq_getD_getElem?, Array.getElem?_modify]
  by_cases hua : u = a
  · subst hua
    simp [Ne.symm hne, ha]
  · by_cases hub : u = b
    · subst hub
      simp [hb, hua, hne]
    · simp [Ne.symm hua, Ne.symm hub, hua, hub]

/-- Joining two nodes adds this pair, both ways, and no other. -/
theorem adjacent_addEdge (hg : g.Sound) :
    (g.addEdge a b).adjacent u v = true ↔ g.adjacent u v = true ∨
      (a ≠ b ∧ a < g.size ∧ b < g.size) ∧ (u = a ∧ v = b ∨ u = b ∧ v = a) := by
  by_cases hab : a = b ∨ g.size ≤ a ∨ g.size ≤ b
  · rw [addEdge, if_pos hab]
    constructor
    · exact .inl
    · rintro (h | ⟨⟨hne, ha, hb⟩, -⟩)
      · exact h
      · omega
  · have hrow := row_addEdge hab u
    simp only [not_or, Nat.not_le] at hab
    obtain ⟨hne, ha, hb⟩ := hab
    rw [adjacent, hrow, adjacent]
    by_cases hua : u = a
    · subst hua
      rw [if_pos rfl, IndexSet.contains_insert, hg.capacity u ha]
      simp only [Bool.or_eq_true, decide_eq_true_eq]
      refine or_congr_right ⟨?_, ?_⟩
      · rintro ⟨rfl, hv⟩
        exact ⟨⟨hne, ha, hb⟩, .inl ⟨trivial, rfl⟩⟩
      · rintro ⟨-, ⟨-, rfl⟩ | ⟨h, -⟩⟩
        · exact ⟨rfl, hb⟩
        · exact absurd h hne
    · rw [if_neg hua]
      by_cases hub : u = b
      · subst hub
        rw [if_pos rfl, IndexSet.contains_insert, hg.capacity u hb]
        simp only [Bool.or_eq_true, decide_eq_true_eq]
        refine or_congr_right ⟨?_, ?_⟩
        · rintro ⟨rfl, hv⟩
          exact ⟨⟨hne, ha, hb⟩, .inr ⟨trivial, rfl⟩⟩
        · rintro ⟨-, ⟨h, -⟩ | ⟨-, rfl⟩⟩
          · exact absurd h hua
          · exact ⟨rfl, ha⟩
      · rw [if_neg hub]
        simp [hua, hub]

theorem Sound.addEdge (hg : g.Sound) (a b : Nat) : (g.addEdge a b).Sound where
  capacity u hu := by
    by_cases hab : a = b ∨ g.size ≤ a ∨ g.size ≤ b
    · rw [Graph.addEdge, if_pos hab] at hu ⊢
      exact hg.capacity u hu
    · rw [size_addEdge] at hu ⊢
      rw [row_addEdge hab]
      split
      · rw [IndexSet.capacity_insert, hg.capacity u hu]
      · split
        · rw [IndexSet.capacity_insert, hg.capacity u hu]
        · exact hg.capacity u hu
  symm u v h := by
    rw [adjacent_addEdge hg] at h ⊢
    rcases h with h | ⟨hab, h⟩
    · exact .inl (hg.symm u v h)
    · exact .inr ⟨hab, h.symm.imp And.symm And.symm⟩
  irrefl u := by
    rw [← Bool.not_eq_true, adjacent_addEdge hg, hg.irrefl]
    rintro (h | ⟨⟨hne, -⟩, ⟨rfl, rfl⟩ | ⟨rfl, rfl⟩⟩)
    · cases h
    · exact hne rfl
    · exact hne rfl

/-- Joining the pairs of a list adds those that are pairs of different nodes. -/
theorem addEdges_spec (hg : g.Sound) (pairs : List (Nat × Nat)) :
    (g.addEdges pairs).Sound ∧ (g.addEdges pairs).size = g.size ∧ ∀ u v,
      (g.addEdges pairs).adjacent u v = true ↔ g.adjacent u v = true ∨
        (u ≠ v ∧ u < g.size ∧ v < g.size) ∧ ((u, v) ∈ pairs ∨ (v, u) ∈ pairs) := by
  induction pairs generalizing g with
  | nil => exact ⟨hg, rfl, fun u v => by simp [addEdges]⟩
  | cons e pairs ih =>
    obtain ⟨a, b⟩ := e
    obtain ⟨hsound, hsize, hadj⟩ := ih (hg.addEdge a b)
    refine ⟨hsound, hsize.trans (size_addEdge g a b), fun u v => ?_⟩
    show ((g.addEdge a b).addEdges pairs).adjacent u v = true ↔ _
    rw [hadj, adjacent_addEdge hg, size_addEdge]
    simp only [List.mem_cons, Prod.mk.injEq]
    constructor
    · rintro ((h | ⟨⟨hne, ha, hb⟩, ⟨rfl, rfl⟩ | ⟨rfl, rfl⟩⟩) | ⟨huv, h⟩)
      · exact .inl h
      · exact .inr ⟨⟨hne, ha, hb⟩, .inl (.inl ⟨rfl, rfl⟩)⟩
      · exact .inr ⟨⟨hne.symm, hb, ha⟩, .inr (.inl ⟨rfl, rfl⟩)⟩
      · exact .inr ⟨huv, h.imp .inr .inr⟩
    · rintro (h | ⟨⟨hne, hu, hv⟩, (⟨rfl, rfl⟩ | h) | (⟨rfl, rfl⟩ | h)⟩)
      · exact .inl (.inl h)
      · exact .inl (.inr ⟨⟨hne, hu, hv⟩, .inl ⟨rfl, rfl⟩⟩)
      · exact .inr ⟨⟨hne, hu, hv⟩, .inl h⟩
      · exact .inl (.inr ⟨⟨hne.symm, hv, hu⟩, .inr ⟨rfl, rfl⟩⟩)
      · exact .inr ⟨⟨hne, hu, hv⟩, .inr h⟩

/-- The graphs there are: every one comes about by joining pairs. -/
inductive Reached : Graph → Prop
  | empty (n : Nat) : Reached (empty n)
  | addEdge {g : Graph} (a b : Nat) : Reached g → Reached (g.addEdge a b)

theorem Reached.sound (h : g.Reached) : g.Sound := by
  induction h with
  | empty n => exact sound_empty n
  | addEdge a b _ ih => exact ih.addEdge a b

theorem Reached.addEdges (h : g.Reached) (pairs : List (Nat × Nat)) :
    (g.addEdges pairs).Reached := by
  induction pairs generalizing g with
  | nil => exact h
  | cons e pairs ih => exact ih (h.addEdge e.1 e.2)

end Graph

end ChordalAlloc
