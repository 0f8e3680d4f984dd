/-
ChordalAlloc/Proofs/Ranks.lean

Ranks keep the forest of a partition shallow, and a byte is enough for them.

Two facts about ranks hold together (`Ranked`): they rise along every link,
and a root of rank `k` names a class of at least `2 ^ k` members.  The first
bounds the length of a climb by the rank of its end, the second bounds that
rank by the logarithm of the number of indices (`Ranked.le_log`).

Shortening a path moves an index below its root, whose rank is higher than
that of everything below it, and touches no rank (`Ranked.find`).  Joining two
roots of one rank raises it by one and doubles what the class is known to hold
(`Ranked.hang`).  This is where the byte comes in: a rank that stayed at
`maxRank` instead of rising would break the first fact.  It does not happen as
long as there are fewer than `2 ^ (maxRank + 1)` indices, because two classes
whose roots have rank `maxRank` would need that many (`Ranked.bump_eq`).
-/
import Mathlib.Data.Nat.Log
import ChordalAlloc.Proofs.Numbering

namespace ChordalAlloc

namespace Partition

variable {p q : Partition} {i j k r : Nat}

/-- The rank of an index. -/
def rankOf (p : Partition) (i : Nat) : Nat := p.rank.getD i 0

/-- The indices of the class named `r`. -/
def members (p : Partition) (r : Nat) : Finset Nat :=
  (Finset.range p.size).filter fun i => p.root i = r

/-- At least `k` links lead up from `i`, one after the other. -/
def Climbs (p : Partition) (i k : Nat) : Prop :=
  ∀ j, j < k → p.link (p.link^[j] i) ≠ p.link^[j] i

instance (p : Partition) (i k : Nat) : Decidable (p.Climbs i k) :=
  inferInstanceAs (Decidable (∀ j, j < k → p.link (p.link^[j] i) ≠ p.link^[j] i))

/-- The ranks are what joining by rank is meant to keep up. -/
structure Ranked (p : Partition) : Prop where
  /-- There is a rank for every index. -/
  size_rank : p.rank.size = p.size
  /-- Ranks rise along links. -/
  rank_lt : ∀ i, p.link i ≠ i → p.rankOf i < p.rankOf (p.link i)
  /-- A root of rank `k` names at least `2 ^ k` indices. -/
  pow_le : ∀ r, r < p.size → p.link r = r → 2 ^ p.rankOf r ≤ (p.members r).card

theorem mem_members : i ∈ p.members r ↔ i < p.size ∧ p.root i = r := by
  simp [members]

/-- Classes depend on the names of the indices only. -/
theorem members_congr (hsize : q.size = p.size) (hroot : ∀ i, q.root i = p.root i) (r : Nat) :
    q.members r = p.members r := by
  ext i
  simp [mem_members, hsize, hroot]

theorem card_members_le (p : Partition) (r : Nat) : (p.members r).card ≤ p.size := by
  have hsub := Finset.card_le_card (Finset.filter_subset (fun i => p.root i = r) (.range p.size))
  rwa [Finset.card_range] at hsub

/-- Different names are names of disjoint classes. -/
theorem disjoint_members (p : Partition) {s : Nat} (hrs : r ≠ s) :
    Disjoint (p.members r) (p.members s) := by
  apply Finset.disjoint_left.2
  intro i hr hs
  exact hrs ((mem_members.1 hr).2.symm.trans (mem_members.1 hs).2)

theorem card_members_add_le (p : Partition) {s : Nat} (hrs : r ≠ s) :
    (p.members r).card + (p.members s).card ≤ p.size := by
  have hsub : p.members r ∪ p.members s ⊆ Finset.range p.size :=
    Finset.union_subset (Finset.filter_subset _ _) (Finset.filter_subset _ _)
  have hcard := Finset.card_le_card hsub
  rwa [Finset.card_union_of_disjoint (p.disjoint_members hrs), Finset.card_range] at hcard

/-! ### What ranks are good for -/

namespace Ranked

/-- A climb ends at a rank that is at least its length above the one it started from. -/
theorem add_le (h : p.Ranked) (hk : p.Climbs i k) : p.rankOf i + k ≤ p.rankOf (p.link^[k] i) := by
  induction k with
  | zero => exact Nat.le_refl _
  | succ k ih =>
    have hlast := h.rank_lt _ (hk k (Nat.lt_succ_self k))
    have hbefore := ih fun j hj => hk j (Nat.lt_succ_of_lt hj)
    rw [Function.iterate_succ_apply']
    omega

theorem le_link (h : p.Ranked) (i : Nat) : p.rankOf i ≤ p.rankOf (p.link i) := by
  by_cases hi : p.link i = i
  · rw [hi]
  · exact Nat.le_of_lt (h.rank_lt i hi)

theorem le_root (h : p.Ranked) (i : Nat) : p.rankOf i ≤ p.rankOf (p.root i) := by
  rw [root_eq_iterate]
  generalize p.size = k
  induction k with
  | zero => exact Nat.le_refl _
  | succ k ih =>
    rw [Function.iterate_succ_apply']
    exact ih.trans (h.le_link _)

/-- What is not a root ranks below its root. -/
theorem lt_root (h : p.Ranked) (hf : p.Forest) (hi : p.root i ≠ i) :
    p.rankOf i < p.rankOf (p.root i) := by
  have hlink : p.link i ≠ i := fun hfix => hi (root_of_link hfix)
  rw [← root_link hf]
  exact Nat.lt_of_lt_of_le (h.rank_lt i hlink) (h.le_root _)

/-- **Ranks are logarithmic.** -/
theorem le_log (h : p.Ranked) (hf : p.Forest) (hi : i < p.size) :
    p.rankOf i ≤ Nat.log 2 p.size := by
  apply Nat.le_log_of_pow_le Nat.one_lt_two
  calc 2 ^ p.rankOf i
      ≤ 2 ^ p.rankOf (p.root i) := Nat.pow_le_pow_right Nat.two_pos (h.le_root i)
    _ ≤ (p.members (p.root i)).card := h.pow_le _ (root_lt hf hi) (link_root hf i)
    _ ≤ p.size := card_members_le p _

/-- **Climbs are logarithmic.** -/
theorem climbs_le_log (h : p.Ranked) (hf : p.Forest) (hi : i < p.size) (hk : p.Climbs i k) :
    k ≤ Nat.log 2 p.size :=
  calc k ≤ p.rankOf i + k := Nat.le_add_left _ _
    _ ≤ p.rankOf (p.link^[k] i) := h.add_le hk
    _ ≤ Nat.log 2 p.size := h.le_log hf (iterate_link_lt hf hi k)

theorem lt_of_size_lt (h : p.Ranked) (hf : p.Forest) (hi : i < p.size) (hsize : p.size < 2 ^ k) :
    p.rankOf i < k := by
  apply Nat.lt_of_le_of_lt (h.le_log hf hi)
  exact Nat.log_lt_of_lt_pow (Nat.ne_of_gt (Nat.zero_lt_of_lt hi)) hsize

/-- Two roots of one rank leave room for a higher one in a byte: their classes have too few
members otherwise. -/
theorem bump_eq (h : p.Ranked) (hsize : p.size < 2 ^ (maxRank + 1)) {s : Nat} (hr : r < p.size)
    (hs : s < p.size) (hrfix : p.link r = r) (hsfix : p.link s = s) (hrs : r ≠ s)
    (heq : p.rankOf r = p.rankOf s) : bump (p.rankOf s) = p.rankOf s + 1 := by
  have hpow : 2 ^ (p.rankOf s + 1) < 2 ^ (maxRank + 1) :=
    calc 2 ^ (p.rankOf s + 1)
        = 2 ^ p.rankOf r + 2 ^ p.rankOf s := by rw [heq, Nat.pow_succ, Nat.mul_two]
      _ ≤ (p.members r).card + (p.members s).card :=
          Nat.add_le_add (h.pow_le r hr hrfix) (h.pow_le s hs hsfix)
      _ ≤ p.size := p.card_members_add_le hrs
      _ < 2 ^ (maxRank + 1) := hsize
  have hlt := (Nat.pow_lt_pow_iff_right Nat.one_lt_two).1 hpow
  exact Nat.min_eq_left (Nat.le_of_lt_succ hlt)

end Ranked

/-! ### Looking up -/

/-- Looking up a name touches no rank. -/
theorem rankOf_find (hf : p.Forest) (i j : Nat) : (p.find i).2.rankOf j = p.rankOf j :=
  congrArg (·.getD j 0) (flatten_spec hf p.size).2.2.2

theorem rankOf_find_find (hf : p.Forest) (i j u : Nat) :
    ((p.find i).2.find j).2.rankOf u = p.rankOf u :=
  (rankOf_find (find_spec hf i).1 j u).trans (rankOf_find hf i u)

/-- Below its root an index ranks lower than what it hangs on, as it did before. -/
theorem Ranked.shorten (h : p.Ranked) (hf : p.Forest) (hi : i < p.size) (hne : p.root i ≠ i) :
    Ranked { p with parent := p.parent.setIfInBounds i (p.root i) } := by
  have hlink := link_set hi (p.root i) p.rank
  have hsize : size { p with parent := p.parent.setIfInBounds i (p.root i) } = p.size :=
    Array.size_setIfInBounds
  refine ⟨h.size_rank.trans hsize.symm, fun j hj => ?_, fun r hr hfix => ?_⟩
  · show p.rankOf j < p.rankOf _
    rw [hlink] at hj ⊢
    split at hj
    · next heq =>
      rw [if_pos heq, heq]
      exact h.lt_root hf hne
    · next hji =>
      rw [if_neg hji]
      exact h.rank_lt j hj
  · rw [members_congr hsize (hf.shorten hi hne).2]
    rw [hlink] at hfix
    rw [hsize] at hr
    apply h.pow_le r hr
    split at hfix
    · next heq => exact absurd (hfix.trans heq) hne
    · exact hfix

theorem Ranked.find (h : p.Ranked) (hf : p.Forest) (i : Nat) : (p.find i).2.Ranked :=
  flatten_induction (fun hq h hj hne => h.shorten hq hj hne) hf h p.size

/-! ### Joining -/

section Hang

variable {low high : Nat}

theorem rankOf_hang (hsize : p.rank.size = p.size) (hhigh : high < p.size) (low j : Nat) :
    (p.hang low high).rankOf j =
      if j = high ∧ p.rankOf low = p.rankOf high then bump (p.rankOf high) else p.rankOf j := by
  have hlt : high < p.rank.size := hsize.symm ▸ hhigh
  by_cases htie : p.rankOf low = p.rankOf high
  · have hrank : (p.hang low high).rank = p.rank.modify high bump := if_pos htie
    rw [rankOf, hrank, Array.getD_eq_getD_getElem?, Array.getElem?_modify]
    by_cases hj : high = j
    · subst hj
      rw [if_pos rfl, if_pos ⟨rfl, htie⟩]
      simp [rankOf, hlt]
    · simp [hj, Ne.symm hj, rankOf]
  · have hrank : (p.hang low high).rank = p.rank := if_neg htie
    rw [if_neg fun h => htie h.2, rankOf, hrank, rankOf]

theorem link_hang (hlt : low < p.size) (high j : Nat) :
    (p.hang low high).link j = if j = low then high else p.link j :=
  link_set hlt high _ j

variable (hf : p.Forest) (hlow : p.link low = low) (hhigh : p.link high = high)
  (hlt : low < p.size) (hlt' : high < p.size) (hne : low ≠ high)

include hf hlow hhigh hlt hlt' hne

/-- The class that is hung joins the one it is hung below. -/
theorem members_hang :
    (p.hang low high).members high = p.members low ∪ p.members high := by
  obtain ⟨-, hsize, hroot⟩ := hang_spec hf hlow hhigh hlt hlt' hne
  ext i
  rw [Finset.mem_union, mem_members, mem_members, mem_members, hsize, hroot, ← and_or_left]
  apply and_congr_right
  intro _
  split
  · next h => exact iff_of_true rfl h
  · next h => exact ⟨fun hi => absurd (.inr hi) h, fun hi => absurd hi h⟩

/-- All other classes stay as they are. -/
theorem members_hang_of_ne (hr : r ≠ high) (hrl : r ≠ low) :
    (p.hang low high).members r = p.members r := by
  obtain ⟨-, hsize, hroot⟩ := hang_spec hf hlow hhigh hlt hlt' hne
  ext i
  rw [mem_members, mem_members, hsize, hroot]
  apply and_congr_right
  intro _
  split
  · next h =>
    refine ⟨fun hi => absurd hi.symm hr, fun hi => ?_⟩
    rcases h with h | h
    · exact absurd (hi.symm.trans h) hrl
    · exact absurd (hi.symm.trans h) hr
  · exact Iff.rfl

omit hf in
/-- Of two equal ranks the upper one rises by one, and no other rank changes. -/
theorem Ranked.rankOf_hang (h : p.Ranked) (hbyte : p.size < 2 ^ (maxRank + 1)) (j : Nat) :
    (p.hang low high).rankOf j =
      p.rankOf j + if j = high ∧ p.rankOf low = p.rankOf high then 1 else 0 := by
  rw [Partition.rankOf_hang h.size_rank hlt' low j]
  split
  · next htie =>
    rw [htie.1]
    exact h.bump_eq hbyte hlt hlt' hlow hhigh hne htie.2
  · rfl

omit hf in
/-- Ranks rise along the new link too: the upper rank was higher, or has just become so. -/
theorem Ranked.rank_lt_hang (h : p.Ranked) (hbyte : p.size < 2 ^ (maxRank + 1))
    (hle : p.rankOf low ≤ p.rankOf high) (hj : (p.hang low high).link j ≠ j) :
    (p.hang low high).rankOf j < (p.hang low high).rankOf ((p.hang low high).link j) := by
  have hrank := h.rankOf_hang hlow hhigh hlt hlt' hne hbyte
  -- a root that others hang below has no link of its own
  have hjh : j ≠ high := by
    rintro rfl
    rw [link_hang hlt, if_neg hne.symm] at hj
    exact hj hhigh
  rw [hrank j, if_neg fun htie => hjh htie.1, hrank]
  rw [link_hang hlt] at hj ⊢
  by_cases hjl : j = low
  · subst hjl
    rw [if_pos rfl]
    split
    · next htie => rw [htie.2]; exact Nat.lt_succ_self _
    · next htie => exact Nat.lt_of_le_of_ne hle fun heq => htie ⟨rfl, heq⟩
  · rw [if_neg hjl] at hj ⊢
    exact Nat.lt_of_lt_of_le (h.rank_lt j hj) (Nat.le_add_right _ _)

/-- A rank that rises pays with the members that the class has gained. -/
theorem Ranked.pow_le_hang (h : p.Ranked) (hbyte : p.size < 2 ^ (maxRank + 1)) (hr : r < p.size)
    (hfix : (p.hang low high).link r = r) :
    2 ^ (p.hang low high).rankOf r ≤ ((p.hang low high).members r).card := by
  have hrl : r ≠ low := by
    rintro rfl
    rw [link_hang hlt, if_pos rfl] at hfix
    exact hne hfix.symm
  rw [link_hang hlt, if_neg hrl] at hfix
  have hpow := h.pow_le r hr hfix
  rw [h.rankOf_hang hlow hhigh hlt hlt' hne hbyte]
  by_cases hrh : r = high
  · subst hrh
    rw [members_hang hf hlow hhigh hlt hlt' hne,
      Finset.card_union_of_disjoint (p.disjoint_members hne)]
    split
    · next htie =>
      have hpow' := h.pow_le low hlt hlow
      rw [htie.2] at hpow'
      rw [Nat.pow_succ, Nat.mul_two]
      exact Nat.add_le_add hpow' hpow
    · exact hpow.trans (Nat.le_add_left _ _)
  · rwa [members_hang_of_ne hf hlow hhigh hlt hlt' hne hrh hrl, if_neg fun htie => hrh htie.1]

/-- Hanging the root of smaller rank keeps ranks right. -/
theorem Ranked.hang (h : p.Ranked) (hbyte : p.size < 2 ^ (maxRank + 1))
    (hle : p.rankOf low ≤ p.rankOf high) : (p.hang low high).Ranked := by
  obtain ⟨-, hsize, -⟩ := hang_spec hf hlow hhigh hlt hlt' hne
  refine ⟨?_, fun j => h.rank_lt_hang hlow hhigh hlt hlt' hne hbyte hle, fun r hr => ?_⟩
  · rw [size_rank_hang, hsize, h.size_rank]
  · exact h.pow_le_hang hf hlow hhigh hlt hlt' hne hbyte (hsize ▸ hr)

end Hang

/-- Joining two indices looks up both names.  If they differ, the root of the smaller rank is hung
below the other, which is the name of both from then on. -/
theorem union_cases (hf : p.Forest) (hi : i < p.size) (hj : j < p.size) :
    p.root i = p.root j ∧ p.union i j = (p.root i, ((p.find i).2.find j).2) ∨
      ∃ low high, (low = p.root i ∧ high = p.root j ∨ low = p.root j ∧ high = p.root i) ∧
        p.IsRoot low ∧ p.IsRoot high ∧ low ≠ high ∧ p.rankOf low ≤ p.rankOf high ∧
        p.union i j = (high, ((p.find i).2.find j).2.hang low high) := by
  have hrank : ∀ u, ((p.find i).2.find j).2.rank.getD u 0 = p.rankOf u := rankOf_find_find hf i j
  have hri := isRoot_root hf hi
  have hrj := isRoot_root hf hj
  unfold union
  dsimp only
  rw [show (p.find i).1 = p.root i from rfl, (find_find_spec hf i j).1, hrank, hrank]
  split
  · next heq => exact .inl ⟨heq, rfl⟩
  · next hne =>
    right
    split
    · next hlt => exact ⟨_, _, .inl ⟨rfl, rfl⟩, hri, hrj, hne, Nat.le_of_lt hlt, rfl⟩
    · next hge =>
      exact ⟨_, _, .inr ⟨rfl, rfl⟩, hrj, hri, Ne.symm hne, Nat.le_of_not_lt hge, rfl⟩

/-- A root is its own parent, also after names were looked up. -/
theorem IsRoot.link_eq (hr : p.IsRoot r) (hq : q.Forest) (hroot : ∀ u, q.root u = p.root u) :
    q.link r = r := by
  have hfix := link_root hq r
  rwa [hroot, hr.2] at hfix

section Union

variable (h : p.Ranked) (hf : p.Forest) (hi : i < p.size) (hj : j < p.size)
  (hbyte : p.size < 2 ^ (maxRank + 1))

include h hf hi hj hbyte

theorem Ranked.union : (p.union i j).2.Ranked := by
  have hfind := (h.find hf i).find (find_spec hf i).1 j
  obtain ⟨-, hq, hroot, hsize⟩ := find_find_spec hf i j
  rcases union_cases hf hi hj with ⟨-, heq⟩ | ⟨low, high, -, hlow, hhigh, hne, hle, heq⟩
  · rw [heq]
    exact hfind
  · rw [heq]
    apply hfind.hang hq (hlow.link_eq hq hroot) (hhigh.link_eq hq hroot) (hsize ▸ hlow.1)
      (hsize ▸ hhigh.1) hne (hsize ▸ hbyte)
    rwa [rankOf_find_find hf, rankOf_find_find hf]

/-- **No increment is lost.**  Joining two classes whose names have the same rank raises the rank of
the name that stays by one; nothing else changes a rank. -/
theorem Ranked.rankOf_union (u : Nat) :
    (p.union i j).2.rankOf u = p.rankOf u +
      if u = (p.union i j).1 ∧ p.root i ≠ p.root j ∧
        p.rankOf (p.root i) = p.rankOf (p.root j) then 1 else 0 := by
  have hfind := (h.find hf i).find (find_spec hf i).1 j
  obtain ⟨-, hq, hroot, hsize⟩ := find_find_spec hf i j
  rcases union_cases hf hi hj with ⟨hsame, heq⟩ | ⟨low, high, hends, hlow, hhigh, hne, -, heq⟩
  · rw [heq, if_neg fun hu => hu.2.1 hsame]
    exact rankOf_find_find hf i j u
  · have hdiff : p.root i ≠ p.root j := by
      rcases hends with ⟨rfl, rfl⟩ | ⟨rfl, rfl⟩
      · exact hne
      · exact Ne.symm hne
    have htie : p.rankOf low = p.rankOf high ↔ p.rankOf (p.root i) = p.rankOf (p.root j) := by
      rcases hends with ⟨rfl, rfl⟩ | ⟨rfl, rfl⟩
      · exact Iff.rfl
      · exact eq_comm
    rw [heq]
    dsimp only
    rw [hfind.rankOf_hang (hlow.link_eq hq hroot) (hhigh.link_eq hq hroot) (hsize ▸ hlow.1)
      (hsize ▸ hhigh.1) hne (hsize ▸ hbyte), rankOf_find_find hf, rankOf_find_find hf,
      rankOf_find_find hf]
    simp [htie, hdiff]

end Union

/-! ### Every partition there is -/

theorem ranked_discrete (n : Nat) : (discrete n).Ranked := by
  obtain ⟨hf, hsize, hroot⟩ := discrete_spec n
  have hzero : ∀ i, (discrete n).rankOf i = 0 := by
    intro i
    rw [rankOf, discrete, Array.getD_eq_getD_getElem?, Array.getElem?_replicate]
    split <;> rfl
  refine ⟨by simp [discrete, size], fun i hi => ?_, fun r hr _ => ?_⟩
  · have hfix := link_root hf i
    rw [hroot] at hfix
    exact absurd hfix hi
  · rw [hzero, Nat.pow_zero]
    apply Finset.card_pos.2
    exact ⟨r, mem_members.2 ⟨hr, hroot r⟩⟩

theorem Ranked.addIndex (h : p.Ranked) (hf : p.Forest) : p.addIndex.2.Ranked := by
  obtain ⟨-, hsize, hroot⟩ := addIndex_spec hf
  have hlink := link_addIndex p
  have hrank : ∀ i, p.addIndex.2.rankOf i = p.rankOf i := by
    intro i
    simp only [rankOf, Partition.addIndex, Array.getD_eq_getD_getElem?, Array.getElem?_push]
    split
    · next hi => simp [hi]
    · rfl
  refine ⟨?_, fun i hi => ?_, fun r hr hfix => ?_⟩
  · rw [hsize, ← h.size_rank]
    exact Array.size_push _
  · rw [hlink] at hi
    rw [hrank, hrank, hlink]
    exact h.rank_lt i hi
  · rw [hsize] at hr
    rw [hlink] at hfix
    rw [hrank]
    rcases Nat.lt_or_eq_of_le (Nat.le_of_lt_succ hr) with hlt | rfl
    · have hsub : p.members r ⊆ p.addIndex.2.members r := by
        intro i hi
        rw [mem_members] at hi ⊢
        rw [hsize, hroot]
        exact ⟨Nat.lt_succ_of_lt hi.1, hi.2⟩
      exact (h.pow_le r hlt hfix).trans (Finset.card_le_card hsub)
    · -- the new index has no rank yet, and is in its own class
      have hzero : p.rankOf p.size = 0 := by simp [rankOf, ← h.size_rank]
      rw [hzero, Nat.pow_zero]
      apply Finset.card_pos.2
      refine ⟨p.size, mem_members.2 ⟨hsize.symm ▸ hr, ?_⟩⟩
      rw [hroot]
      exact root_of_link hfix

/-- **Every partition there is has its ranks right**, as long as a byte can hold them. -/
theorem Reached.ranked (h : p.Reached) (hbyte : p.size < 2 ^ (maxRank + 1)) : p.Ranked := by
  -- no step takes indices away, so there was room for the ranks at every step before
  induction h with
  | discrete n => exact ranked_discrete n
  | addIndex hc ih =>
    have hsize := (addIndex_spec hc.forest).2.1
    exact (ih (by omega)).addIndex hc.forest
  | @find c i hc _ ih =>
    have hsize := (find_spec hc.forest i).2.2
    exact (ih (hsize ▸ hbyte)).find hc.forest i
  | union hc hi hj ih =>
    have hsize := (union_spec hc.forest hi hj).2.1
    rw [hsize] at hbyte
    exact (ih hbyte).union hc.forest hi hj hbyte

/-! ### Histories -/

theorem Reached.find? (h : p.Reached) (hfind : p.find? i = some (r, q)) : q.Reached := by
  unfold Partition.find? at hfind
  split at hfind
  · next hi =>
    have hq : (p.find i).2 = q := congrArg Prod.snd (Option.some.inj hfind)
    exact hq ▸ .find h hi
  · cases hfind

theorem Reached.call {c : Call} (h : p.Reached) (hrun : c.run p = some q) : q.Reached := by
  cases c with
  | create => exact Option.some.inj hrun ▸ .addIndex h
  | find i =>
    obtain ⟨⟨r, q'⟩, hfind, rfl⟩ := Option.map_eq_some_iff.1 hrun
    exact h.find? hfind
  | union i j =>
    obtain ⟨t, hunion, rfl⟩ := Option.map_eq_some_iff.1 hrun
    unfold union? at hunion
    split at hunion
    · next hij => exact Option.some.inj hunion ▸ .union h hij.1 hij.2
    · cases hunion
  | same i j =>
    obtain ⟨t, hask, rfl⟩ := Option.map_eq_some_iff.1 hrun
    obtain ⟨⟨ri, p₁⟩, hfind₁, hrest⟩ := Option.bind_eq_some_iff.1 hask
    obtain ⟨⟨rj, p₂⟩, hfind₂, heq⟩ := Option.bind_eq_some_iff.1 hrest
    cases heq
    exact (h.find? hfind₁).find? hfind₂

/-- Numbering looks up one index after the other. -/
theorem Reached.foldlM_packStep {is : List Nat} {n : Numbering} {s : Numbering × Partition}
    (h : p.Reached) (hrun : is.foldlM packStep (n, p) = some s) : s.2.Reached := by
  induction is generalizing n p with
  | nil =>
    cases hrun
    exact h
  | cons i is ih =>
    rw [List.foldlM_cons] at hrun
    obtain ⟨⟨n', p'⟩, hstep, hrest⟩ := Option.bind_eq_some_iff.1 hrun
    obtain ⟨⟨r, p''⟩, hfind, heq⟩ := Option.bind_eq_some_iff.1 hstep
    cases heq
    exact ih (h.find? hfind) hrest

theorem Reached.request {c : Request} (h : p.Reached) (hrun : c.run p = some q) : q.Reached := by
  cases c with
  | call c => exact h.call hrun
  | pack =>
    obtain ⟨t, hpack, rfl⟩ := Option.map_eq_some_iff.1 hrun
    obtain ⟨s, hfold, heq⟩ := Option.bind_eq_some_iff.1 hpack
    cases heq
    exact h.foldlM_packStep hfold

theorem Reached.requests {requests : List Request} (h : p.Reached)
    (hrun : requests.foldlM Request.run p = some q) : q.Reached := by
  induction requests generalizing p with
  | nil => exact Option.some.inj hrun ▸ h
  | cons c requests ih =>
    rw [List.foldlM_cons] at hrun
    obtain ⟨p', hstep, hrest⟩ := Option.bind_eq_some_iff.1 hrun
    exact ih (h.request hstep) hrest

theorem callsOf_append (past rest : List Request) :
    callsOf (past ++ rest) = callsOf past ++ callsOf rest := by
  induction past with
  | nil => rfl
  | cons c past ih => cases c <;> simp [callsOf, ih]

/-- What is asked first names existing indices if everything does. -/
theorem InRange.of_append {n : Nat} {past rest : List Call} (h : InRange n (past ++ rest)) :
    InRange n past := by
  induction past generalizing n with
  | nil => trivial
  | cons c past ih => exact ⟨h.1, ih h.2⟩

/-- **Joining by rank keeps the forest shallow, and a byte is enough for the ranks.**  At every
point of a history of requests that name existing indices, with fewer than `2 ^ 256` indices, which
is more than any machine counts: ranks rise along links, and a root of rank `k` names at least
`2 ^ k` indices.  Hence no climb has more links than the logarithm of the number of indices, and
joining two roots of one rank always makes the rank of the one that stays greater by one.  If a word
of 64 bits can hold the number of indices, all ranks are below 64. -/
theorem requests_shallow (count : Nat) (requests past : List Request)
    (hfit : InRange count (callsOf requests)) (hpast : past <+: requests) :
    ∃ p, past.foldlM Request.run (discrete count) = some p ∧
      (p.size < 2 ^ 256 → p.Ranked ∧
        (∀ i k, i < p.size → p.Climbs i k → k ≤ Nat.log 2 p.size) ∧
        ∀ i j, i < p.size → j < p.size → ∃ r q, p.union? i j = some (r, q) ∧
          ∀ u, q.rankOf u = p.rankOf u +
            if u = r ∧ (p.find i).1 ≠ (p.find j).1 ∧
              p.rankOf (p.find i).1 = p.rankOf (p.find j).1 then 1 else 0) ∧
      (p.size < 2 ^ 64 → ∀ i, i < p.size → p.rankOf i < 64) := by
  obtain ⟨rest, rfl⟩ := hpast
  rw [callsOf_append] at hfit
  obtain ⟨p, hrun, -⟩ := exists_of_inRange hfit.of_append
  have hreached : p.Reached := Reached.requests (.discrete count) hrun
  have hf := hreached.forest
  refine ⟨p, hrun, fun hbyte => ?_, fun hword i hi => ?_⟩
  · have hranked := hreached.ranked hbyte
    refine ⟨hranked, fun i k hi => hranked.climbs_le_log hf hi, fun i j hi hj => ?_⟩
    exact ⟨_, _, union?_eq hi hj, hranked.rankOf_union hf hi hj hbyte⟩
  · have hbyte : p.size < 2 ^ 256 := hword.trans (Nat.pow_lt_pow_right Nat.one_lt_two (by decide))
    exact (hreached.ranked hbyte).lt_of_size_lt hf hi hword

/-- Two pairs are joined, one of them with a new index, and then an index of each. -/
def tallest : List Request :=
  [.call (.union 0 1), .pack, .call .create, .call (.union 2 3), .call (.union 1 3)]

/-- With four indices there is a way of two links, and there is no longer one. -/
theorem requests_shallow_tallest :
    InRange 3 (callsOf tallest) ∧
      ∃ p, tallest.foldlM Request.run (discrete 3) = some p ∧ p.size = 4 ∧ p.Ranked ∧
        p.rankOf 0 = 2 ∧ p.Climbs 3 2 ∧ ∀ k, p.Climbs 3 k → k ≤ 2 := by
  have hfit : InRange 3 (callsOf tallest) := by
    simp [InRange, callsOf, tallest, Call.Fits, Call.grow]
  have hp : tallest.foldlM Request.run (discrete 3)
      = some ⟨#[0, 0, 0, 2], #[2, 0, 1, 0]⟩ := by decide +kernel
  obtain ⟨p, hrun, hshallow, -⟩ := requests_shallow 3 tallest tallest hfit List.prefix_rfl
  obtain rfl := Option.some.inj (hrun.symm.trans hp)
  obtain ⟨hranked, hclimbs, -⟩ := hshallow (by decide)
  refine ⟨hfit, _, hrun, rfl, hranked, rfl, by decide, fun k hk => ?_⟩
  exact (hclimbs 3 k (by decide) hk).trans (by decide)

end Partition

end ChordalAlloc
