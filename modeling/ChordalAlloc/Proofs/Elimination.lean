/-
ChordalAlloc/Proofs/Elimination.lean

A maximum cardinality search of an undirected graph visits the nodes in a
`SearchOrder`, also if it is told to start with nodes that are all joined to
each other.

The weight of a node is the number of its visited neighbours
(`Simple.pointing_eq`).  If `b` is taken although `c` is joined to an earlier
node that `b` is not joined to, then `b` has another earlier neighbour that
makes up for it, since it does not weigh less.  Among the nodes that the
search was told to start with there is no such `b`: they are all joined.

So the nodes of a chordal graph can be taken away again, the latest first, each
with neighbours that are joined to each other (`cardinalityOrder_perfect`).
-/
import ChordalAlloc.Proofs.CardinalityOrder
import ChordalAlloc.Proofs.Checks
import ChordalAlloc.Proofs.Chordality

namespace ChordalAlloc

namespace Digraph

variable {g : Digraph} {first : List Nat} {u v : Nat}

/-- The lists of successors are the neighbours in an undirected graph. -/
structure Simple (g : Digraph) : Prop where
  nodup : ∀ u, (g.next u).Nodup
  symm : ∀ u v, v ∈ g.next u → u ∈ g.next v

theorem lt_size_of_mem_next (h : v ∈ g.next u) : u < g.size := by
  by_contra hge
  rw [next, Array.getD_eq_getD_getElem?, Array.getElem?_eq_none (Nat.le_of_not_lt hge)] at h
  exact absurd h List.not_mem_nil

/-- The weight of a node is the number of its neighbours among the nodes visited. -/
theorem Simple.pointing_eq (hg : g.Simple) (us : List Nat) (v : Nat) :
    g.pointing us v = us.countP fun u => decide (v ∈ g.next u) := by
  induction us with
  | nil => rfl
  | cons u us ih =>
    have hcons : g.pointing (u :: us) v = (g.next u).count v + g.pointing us v := by
      rw [pointing, List.flatMap_cons, List.count_append, pointing]
    rw [hcons, ih, List.countP_cons, Nat.add_comm]
    by_cases hv : v ∈ g.next u
    · simp [hv, List.count_eq_one_of_mem (hg.nodup u) hv]
    · simp [hv, List.count_eq_zero_of_not_mem hv]

/-- If `q` holds of no more entries than `p`, and of one that `p` does not hold of, then `p` holds
of one that `q` does not hold of. -/
theorem exists_of_countP_le {p q : Nat → Bool} {us : List Nat} {a : Nat}
    (hle : us.countP q ≤ us.countP p) (ha : a ∈ us) (hp : p a = false) (hq : q a = true) :
    ∃ d ∈ us, p d = true ∧ q d = false := by
  by_contra hnone
  have himp : ∀ d ∈ us, p d = true → q d = true := by
    intro d hd hpd
    by_contra hqd
    exact hnone ⟨d, hd, hpd, Bool.eq_false_iff.2 hqd⟩
  -- then every entry counted for `p` is counted for `q`, and `a` for `q` alone
  have hlt : us.countP p < us.countP q := by
    obtain ⟨l, r, rfl⟩ := List.append_of_mem ha
    have hl : l.countP p ≤ l.countP q :=
      List.countP_mono_left fun d hd => himp d (List.mem_append_left _ hd)
    have hr : r.countP p ≤ r.countP q :=
      List.countP_mono_left fun d hd => himp d (List.mem_append_right _ (List.mem_cons_of_mem a hd))
    rw [List.countP_append, List.countP_append, List.countP_cons_of_pos hq,
      List.countP_cons_of_neg (Bool.eq_false_iff.1 hp)]
    omega
  omega

/-- The nodes before a node in a list are those found earlier. -/
theorem idxOf_lt_iff {before after : List Nat} (hnew : u ∉ before) :
    (before ++ u :: after).idxOf v < (before ++ u :: after).idxOf u ↔ v ∈ before := by
  have hu : (before ++ u :: after).idxOf u = before.length := by
    rw [List.idxOf_append_of_notMem hnew, List.idxOf_cons_self, Nat.add_zero]
  rw [hu]
  by_cases hv : v ∈ before
  · rw [List.idxOf_append_of_mem hv]
    exact iff_of_true (List.idxOf_lt_length_of_mem hv) hv
  · rw [List.idxOf_append_of_notMem hv]
    exact iff_of_false (by omega) hv

/-- When a node is visited. -/
def turn (g : Digraph) (first : List Nat) (u : Nat) : Nat := (g.cardinalityOrder first).idxOf u

theorem mem_before_iff {before after : List Nat}
    (h : g.cardinalityOrder first = before ++ u :: after) :
    v ∈ before ↔ g.turn first v < g.turn first u := by
  have hnew := notMem_before (cardinalityOrder_nodup g first) h
  rw [turn, turn, h, idxOf_lt_iff hnew]

/-- **The search is one that never takes a node with fewer visited neighbours**, if the nodes it is
told to start with are joined to each other. -/
theorem Simple.searchOrder (hg : g.Simple)
    (hfirst : ∀ a ∈ first, ∀ b ∈ first, a ≠ b → b ∈ g.next a) :
    SearchOrder (fun a b => b ∈ g.next a) (g.turn first) where
  apart a b c hab hac := by
    have ha : a ∈ g.cardinalityOrder first :=
      List.idxOf_lt_length_iff.1 (Nat.lt_of_lt_of_le hac List.idxOf_le_length)
    exact (List.idxOf_inj ha).1 hab
  pick a b c hab hbc hac hnot := by
    have hb : b ∈ g.cardinalityOrder first :=
      List.idxOf_lt_length_iff.1 (Nat.lt_of_lt_of_le hbc List.idxOf_le_length)
    obtain ⟨before, after, horder⟩ := List.append_of_mem hb
    have ha : a ∈ before := (mem_before_iff horder).2 hab
    rcases g.cardinalityOrder_led first horder with hasked | ⟨-, hbest⟩
    · refine absurd (hfirst a (hasked a (.inr ha)) b (hasked b (.inl rfl)) ?_) hnot
      rintro rfl
      exact Nat.lt_irrefl _ hab
    · have hc : c ∉ before := fun hmem => Nat.lt_asymm hbc ((mem_before_iff horder).1 hmem)
      have hle := (hbest c (lt_size_of_mem_next (hg.symm a c hac)) hc).1
      rw [hg.pointing_eq, hg.pointing_eq] at hle
      obtain ⟨d, hd, hdb, hdc⟩ :=
        exists_of_countP_le hle ha (decide_eq_false hnot) (decide_eq_true hac)
      exact ⟨d, (mem_before_iff horder).1 hd, of_decide_eq_true hdb, of_decide_eq_false hdc⟩

/-- **A search of a chordal graph is a perfect elimination order read backwards**: the neighbours of
a node that come before it are joined to each other.  The search may be told to start with any nodes
that are joined to each other, in any order. -/
theorem cardinalityOrder_perfect (g : Digraph) (hg : g.Simple)
    (hchordal : Chordal fun a b => b ∈ g.next a) (first : List Nat)
    (hfirst : ∀ a ∈ first, ∀ b ∈ first, a ≠ b → b ∈ g.next a) (before : List Nat) (u : Nat)
    (after : List Nat) (horder : g.cardinalityOrder first = before ++ u :: after) (a : Nat)
    (ha : a ∈ before) (hau : a ∈ g.next u) (b : Nat) (hb : b ∈ before) (hbu : b ∈ g.next u)
    (hab : a ≠ b) : b ∈ g.next a := by
  apply hchordal.earlier_adjacent hg.symm (hg.searchOrder hfirst)
  · exact hg.symm u a hau
  · exact hg.symm u b hbu
  · exact (mem_before_iff horder).1 ha
  · exact (mem_before_iff horder).1 hb
  · exact hab

/-- Two triangles that share a side, a node at one end and a node by itself. -/
def pennant : Digraph := #[[1, 2], [0, 2, 3], [1, 0, 3], [2, 1, 4], [3], []]

theorem next_pennant : ∀ u v, v ∈ pennant.next u → u < 6 ∧ v < 6 := by
  intro u v hv
  have hu : u < 6 := lt_size_of_mem_next hv
  have hall : ∀ u < 6, ∀ v ∈ pennant.next u, v < 6 := by decide
  exact ⟨hu, hall u hu v hv⟩

theorem simple_pennant : pennant.Simple where
  nodup u := by
    by_cases hu : u < 6
    · have hall : ∀ u < 6, (pennant.next u).Nodup := by decide
      exact hall u hu
    · rw [next, Array.getD_eq_getD_getElem?, Array.getElem?_eq_none (Nat.le_of_not_lt hu)]
      exact List.nodup_nil
  symm u v hv := by
    have hall : ∀ u < 6, ∀ v ∈ pennant.next u, u ∈ pennant.next v := by decide
    exact hall u (next_pennant u v hv).1 v hv

theorem chordal_pennant : Chordal fun a b => b ∈ pennant.next a := by
  apply Chordal.of_rank id
  · exact simple_pennant.symm
  · intro u x y hx hy hxu hyu hxy
    have hall : ∀ u < 6, ∀ x ∈ pennant.next u, ∀ y ∈ pennant.next u, x ≤ u → y ≤ u → x ≠ y →
        y ∈ pennant.next x := by decide
    exact hall u (next_pennant u x hx).1 x hx y hy hxu hyu hxy

/-- The pennant is searched from a side of a triangle on.  The last node of the other triangle comes
when both ends of the side they share have been visited. -/
theorem cardinalityOrder_perfect_pennant :
    pennant.Simple ∧ (Chordal fun a b => b ∈ pennant.next a) ∧
      pennant.cardinalityOrder [3, 2] = [3, 2, 1] ++ 0 :: [4, 5] ∧ 1 ∈ pennant.next 0 ∧
      2 ∈ pennant.next 0 ∧ 1 ∈ pennant.next 2 := by
  have horder : pennant.cardinalityOrder [3, 2] = [3, 2, 1] ++ 0 :: [4, 5] := by decide +kernel
  have hfirst : ∀ a ∈ [3, 2], ∀ b ∈ [3, 2], a ≠ b → b ∈ pennant.next a := by decide
  exact ⟨simple_pennant, chordal_pennant, horder, by decide, by decide,
    pennant.cardinalityOrder_perfect simple_pennant chordal_pennant [3, 2] hfirst [3, 2, 1] 0 [4, 5]
      horder 2 (by decide) (by decide) 1 (by decide) (by decide) (by decide)⟩

end Digraph

end ChordalAlloc
