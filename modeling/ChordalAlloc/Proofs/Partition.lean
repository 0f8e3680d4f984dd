/-
ChordalAlloc/Proofs/Partition.lean

A forest of parent links is a partition.

What a forest needs is a depth that falls along links (`Forest`).  Ranks are
no such depth: they are kept in a byte and may stop growing.  Climbing is
iterating `link`, a climb of as many links as there are indices ends at a
root (`link_root`), and any function that links respect and that fixes the
roots is `root` itself (`root_eq_of`).  The last fact is how each operation
is understood: shortening a path changes no root (`find_spec`), and joining
two classes renames both and no other (`union_spec`).

Every partition that comes about is a forest (`Reached.forest`).  The numbers
handed out in the end tell classes apart (`numbering_spec`).
-/
import Mathlib.Algebra.Order.Group.Nat
import Mathlib.Data.Finset.Card
import Mathlib.Logic.Function.Iterate
import ChordalAlloc.Partition
import ChordalAlloc.Proofs.Checks

namespace ChordalAlloc

namespace Partition

/-- Links stay within the forest and never go round in a circle. -/
structure Forest (p : Partition) : Prop where
  link_lt : ∀ i, i < p.size → p.link i < p.size
  depth : ∃ d : Nat → Nat, ∀ i, p.link i ≠ i → d (p.link i) < d i

variable {p : Partition} {i j : Nat}

/-! ### Roots -/

theorem climb_eq_iterate (k : Nat) : p.climb k i = p.link^[k] i := by
  induction k generalizing i with
  | zero => rfl
  | succ k ih =>
    rw [climb, Function.iterate_succ_apply]
    split
    · next h => rw [h, Function.iterate_fixed h]
    · exact ih

theorem root_eq_iterate : p.root i = p.link^[p.size] i := climb_eq_iterate p.size

theorem link_of_le (h : p.size ≤ i) : p.link i = i := by
  rw [link, Array.getD_eq_getD_getElem?, Array.getElem?_eq_none h, Option.getD_none]

theorem iterate_link_lt (hf : p.Forest) (hi : i < p.size) (k : Nat) : p.link^[k] i < p.size := by
  induction k with
  | zero => exact hi
  | succ k ih =>
    rw [Function.iterate_succ_apply']
    exact hf.link_lt _ ih

/-- A climb of as many links as there are indices ends at a root: before it got there it would
have met more indices than there are. -/
theorem link_root (hf : p.Forest) (i : Nat) : p.link (p.root i) = p.root i := by
  rw [root_eq_iterate]
  by_cases hi : i < p.size
  swap
  · have hfix := link_of_le (Nat.le_of_not_lt hi)
    rw [Function.iterate_fixed hfix, hfix]
  by_contra hne
  obtain ⟨d, hd⟩ := hf.depth
  -- no index on the way is a root, or the climb would have stopped there
  have hway : ∀ k, k ≤ p.size → p.link (p.link^[k] i) ≠ p.link^[k] i := by
    intro k hk hfix
    obtain ⟨j, hj⟩ := Nat.exists_eq_add_of_le' hk
    rw [hj, Function.iterate_add_apply, Function.iterate_fixed hfix, hfix] at hne
    exact hne rfl
  have hfall : ∀ j k, j < k → k ≤ p.size → d (p.link^[k] i) < d (p.link^[j] i) := by
    intro j k hjk
    induction hjk with
    | refl =>
      intro hk
      rw [Function.iterate_succ_apply']
      exact hd _ (hway j (Nat.le_of_succ_le hk))
    | @step k _ ih =>
      intro hk
      rw [Function.iterate_succ_apply']
      exact (hd _ (hway k (Nat.le_of_succ_le hk))).trans (ih (Nat.le_of_succ_le hk))
  obtain ⟨a, ha, b, hb, hab, heq⟩ := Finset.exists_ne_map_eq_of_card_lt_of_maps_to
    (s := Finset.range (p.size + 1)) (t := Finset.range p.size) (f := fun k => p.link^[k] i)
    (by rw [Finset.card_range, Finset.card_range]; exact Nat.lt_succ_self _)
    (fun k _ => Finset.mem_coe.2 (Finset.mem_range.2 (iterate_link_lt hf hi k)))
  rw [Finset.mem_range, Nat.lt_succ_iff] at ha hb
  rcases Nat.lt_or_gt_of_ne hab with hlt | hlt
  · have := hfall a b hlt hb
    rw [heq] at this
    exact Nat.lt_irrefl _ this
  · have := hfall b a hlt ha
    rw [heq] at this
    exact Nat.lt_irrefl _ this

theorem root_of_link (h : p.link i = i) : p.root i = i := by
  rw [root_eq_iterate, Function.iterate_fixed h]

theorem root_link (hf : p.Forest) (i : Nat) : p.root (p.link i) = p.root i := by
  have h := link_root hf i
  rw [root_eq_iterate, ← Function.iterate_succ_apply, Function.iterate_succ_apply',
    ← root_eq_iterate, h]

@[simp] theorem root_root (hf : p.Forest) (i : Nat) : p.root (p.root i) = p.root i :=
  root_of_link (link_root hf i)

theorem root_lt (hf : p.Forest) (hi : i < p.size) : p.root i < p.size := by
  rw [root_eq_iterate]
  exact iterate_link_lt hf hi p.size

/-- What respects links and fixes roots is the root. -/
theorem root_eq_of (hf : p.Forest) {f : Nat → Nat} (hlink : ∀ i, f (p.link i) = f i)
    (hroot : ∀ i, p.link i = i → f i = i) (i : Nat) : p.root i = f i := by
  have hiter : ∀ k, f (p.link^[k] i) = f i := by
    intro k
    induction k with
    | zero => rfl
    | succ k ih => rw [Function.iterate_succ_apply', hlink, ih]
  have h := hiter p.size
  rw [← root_eq_iterate, hroot _ (link_root hf i)] at h
  exact h

/-- The depth does not grow on the way to the root, and falls if there is a way at all. -/
theorem depth_root_lt (hf : p.Forest) {d : Nat → Nat} (hd : ∀ i, p.link i ≠ i → d (p.link i) < d i)
    (hne : p.root i ≠ i) : d (p.root i) < d i := by
  have hle : ∀ k j, d (p.link^[k] j) ≤ d j := by
    intro k
    induction k with
    | zero => exact fun j => Nat.le_refl _
    | succ k ih =>
      intro j
      rw [Function.iterate_succ_apply]
      by_cases hj : p.link j = j
      · rw [hj]
        exact ih j
      · exact (ih _).trans (Nat.le_of_lt (hd j hj))
  have hlink : p.link i ≠ i := fun h => hne (root_of_link h)
  rw [← root_link hf, root_eq_iterate]
  exact Nat.lt_of_le_of_lt (hle _ _) (hd i hlink)

/-! ### Changing one link -/

theorem link_set (hi : i < p.size) (r : Nat) (rank : Array Nat) (j : Nat) :
    (Partition.mk (p.parent.setIfInBounds i r) rank).link j = if j = i then r else p.link j := by
  simp only [link, Array.getD_eq_getD_getElem?, Array.getElem?_setIfInBounds]
  by_cases hij : i = j
  · subst hij
    have hlt : i < p.parent.size := hi
    simp [hlt]
  · simp [hij, Ne.symm hij]

/-- Hanging an index directly below its root changes no root. -/
theorem Forest.shorten (hf : p.Forest) (hi : i < p.size) (hne : p.root i ≠ i) :
    Forest { p with parent := p.parent.setIfInBounds i (p.root i) } ∧
      ∀ j, Partition.root { p with parent := p.parent.setIfInBounds i (p.root i) } j
        = p.root j := by
  obtain ⟨d, hd⟩ := hf.depth
  have hlink := link_set hi (p.root i) p.rank
  have hforest : Forest { p with parent := p.parent.setIfInBounds i (p.root i) } := by
    refine ⟨fun j hj => ?_, d, fun j hj => ?_⟩
    · rw [size, Array.size_setIfInBounds] at hj ⊢
      rw [hlink]
      split
      · exact root_lt hf hi
      · exact hf.link_lt j hj
    · rw [hlink] at hj ⊢
      split at hj
      · next h =>
        rw [if_pos h, h]
        exact depth_root_lt hf hd hne
      · next h =>
        rw [if_neg h]
        exact hd j hj
  refine ⟨hforest, root_eq_of hforest (fun j => ?_) fun j hj => ?_⟩
  · rw [hlink]
    split
    · next h => rw [h, root_root hf]
    · exact root_link hf j
  · rw [hlink] at hj
    split at hj
    · next h => exact absurd (hj.trans h) hne
    · exact root_of_link hj

/-- What hanging one index directly below its root keeps, shortening a whole way keeps. -/
theorem flatten_induction {P : Partition → Prop}
    (hstep : ∀ {q : Partition} {j : Nat}, q.Forest → P q → j < q.size → q.root j ≠ j →
      P { q with parent := q.parent.setIfInBounds j (q.root j) })
    (hf : p.Forest) (hp : P p) (k : Nat) : P (p.flatten (p.root i) k i) := by
  induction k generalizing p i with
  | zero => exact hp
  | succ k ih =>
    rw [flatten]
    split
    · exact hp
    · next hne =>
      have hi : i < p.size := by
        by_contra hge
        have hfix := link_of_le (Nat.le_of_not_lt hge)
        exact hne (hfix.trans (root_of_link hfix).symm)
      have hroot : p.root i ≠ i := by
        intro heq
        have hfix := link_root hf i
        rw [heq] at hfix
        exact hne (hfix.trans heq.symm)
      obtain ⟨hf', hsame⟩ := hf.shorten hi hroot
      have hnext := @ih _ (p.link i) hf' (hstep hf hp hi hroot)
      rwa [hsame, root_link hf] at hnext

/-- Shortening the way to a root changes no root and no rank. -/
theorem flatten_spec (hf : p.Forest) (k : Nat) :
    (p.flatten (p.root i) k i).Forest ∧ (∀ j, (p.flatten (p.root i) k i).root j = p.root j) ∧
      (p.flatten (p.root i) k i).size = p.size ∧ (p.flatten (p.root i) k i).rank = p.rank := by
  apply flatten_induction (P := fun q => q.Forest ∧ (∀ j, q.root j = p.root j) ∧
    q.size = p.size ∧ q.rank = p.rank) _ hf ⟨hf, fun _ => rfl, rfl, rfl⟩
  rintro q j hq ⟨-, hroot, hsize, hrank⟩ hj hne
  obtain ⟨hforest, hsame⟩ := hq.shorten hj hne
  refine ⟨hforest, fun u => (hsame u).trans (hroot u), ?_, hrank⟩
  exact Array.size_setIfInBounds.trans hsize

theorem find_spec (hf : p.Forest) (i : Nat) :
    (p.find i).2.Forest ∧ (∀ j, (p.find i).2.root j = p.root j) ∧
      (p.find i).2.size = p.size :=
  have h := @flatten_spec p i hf p.size
  ⟨h.1, h.2.1, h.2.2.1⟩

/-- Looking up two names one after the other. -/
theorem find_find_spec (hf : p.Forest) (i j : Nat) :
    ((p.find i).2.find j).1 = p.root j ∧ ((p.find i).2.find j).2.Forest ∧
      (∀ u, ((p.find i).2.find j).2.root u = p.root u) ∧
      ((p.find i).2.find j).2.size = p.size := by
  obtain ⟨hf₁, hroot₁, hsize₁⟩ := find_spec hf i
  obtain ⟨hf₂, hroot₂, hsize₂⟩ := find_spec hf₁ j
  exact ⟨hroot₁ j, hf₂, fun u => (hroot₂ u).trans (hroot₁ u), hsize₂.trans hsize₁⟩

/-! ### Joining two classes -/

/-- Hanging one root below another gives two classes one name and leaves all others alone. -/
theorem hang_spec (hf : p.Forest) {low high : Nat} (hlow : p.link low = low)
    (hhigh : p.link high = high) (hlt : low < p.size) (hlt' : high < p.size)
    (hne : low ≠ high) :
    (p.hang low high).Forest ∧ (p.hang low high).size = p.size ∧
      ∀ j, (p.hang low high).root j =
        if p.root j = low ∨ p.root j = high then high else p.root j := by
  obtain ⟨d, hd⟩ := hf.depth
  have hlink : ∀ j, (p.hang low high).link j = if j = low then high else p.link j :=
    link_set hlt high _
  have hrlow := root_of_link hlow
  have hrhigh := root_of_link hhigh
  have hforest : (p.hang low high).Forest := by
    refine ⟨fun j hj => ?_, fun j => if p.root j = low then d j + d high + 1 else d j,
      fun j hj => ?_⟩
    · rw [hang, size, Array.size_setIfInBounds] at hj ⊢
      rw [← hang, hlink]
      split
      · exact hlt'
      · exact hf.link_lt j hj
    · -- the tree that is hung lies deeper than everything it is hung below
      rw [hlink] at hj ⊢
      dsimp only
      by_cases hjl : j = low
      · subst hjl
        rw [if_pos rfl, hrhigh, if_neg hne.symm, hrlow, if_pos rfl]
        omega
      · rw [if_neg hjl] at hj ⊢
        rw [root_link hf]
        have hfall := hd j hj
        split <;> omega
  refine ⟨hforest, Array.size_setIfInBounds, root_eq_of hforest (fun j => ?_) fun j hj => ?_⟩
  · rw [hlink]
    split
    · next h => rw [h, hrhigh, hrlow, if_pos (.inr rfl), if_pos (.inl rfl)]
    · rw [root_link hf]
  · rw [hlink] at hj
    split at hj
    · next h => exact absurd (hj.trans h).symm hne
    · next h =>
      rw [root_of_link hj]
      split
      · next hname => exact (hname.resolve_left h).symm
      · rfl

theorem size_rank_hang (p : Partition) (low high : Nat) :
    (p.hang low high).rank.size = p.rank.size := by
  unfold hang
  dsimp only
  split
  · exact Array.size_modify
  · rfl

/-- **Joining two classes** gives both the name that is returned, which is one of their names,
and leaves all others alone. -/
theorem union_spec (hf : p.Forest) (hi : i < p.size) (hj : j < p.size) :
    (p.union i j).2.Forest ∧ (p.union i j).2.size = p.size ∧
      ((p.union i j).1 = p.root i ∨ (p.union i j).1 = p.root j) ∧
      ∀ u, (p.union i j).2.root u =
        if p.root u = p.root i ∨ p.root u = p.root j then (p.union i j).1 else p.root u := by
  obtain ⟨hname, hf₂, hroot, hsize⟩ := find_find_spec hf i j
  have hlink : ∀ u, ((p.find i).2.find j).2.link (p.root u) = p.root u := by
    intro u
    rw [← hroot u]
    exact link_root hf₂ u
  have hlt : ∀ {u}, u < p.size → p.root u < ((p.find i).2.find j).2.size := by
    intro u hu
    rw [hsize]
    exact root_lt hf hu
  unfold union
  dsimp only
  rw [show (p.find i).1 = p.root i from rfl, hname]
  split
  · next heq =>
    refine ⟨hf₂, hsize, .inl rfl, fun u => ?_⟩
    rw [hroot]
    split
    · next h => exact h.elim id fun h => h.trans heq.symm
    · rfl
  · next hne =>
    split
    · obtain ⟨hforest, hs, hr⟩ := hang_spec hf₂ (hlink i) (hlink j) (hlt hi) (hlt hj) hne
      refine ⟨hforest, hs.trans hsize, .inr rfl, fun u => ?_⟩
      rw [hr, hroot]
    · obtain ⟨hforest, hs, hr⟩ :=
        hang_spec hf₂ (hlink j) (hlink i) (hlt hj) (hlt hi) (Ne.symm hne)
      refine ⟨hforest, hs.trans hsize, .inl rfl, fun u => ?_⟩
      rw [hr, hroot]
      exact if_congr or_comm rfl rfl

theorem discrete_spec (n : Nat) :
    (discrete n).Forest ∧ (discrete n).size = n ∧ ∀ i, (discrete n).root i = i := by
  have hlink : ∀ i, (discrete n).link i = i := by
    intro i
    rw [link, discrete, Array.getD_eq_getD_getElem?]
    by_cases hi : i < n
    · rw [Array.getElem?_eq_getElem (by rw [Array.size_range]; exact hi), Array.getElem_range]
      rfl
    · rw [Array.getElem?_eq_none (by rw [Array.size_range]; omega)]
      rfl
  refine ⟨⟨fun i hi => ?_, fun _ => 0, fun i hi => absurd (hlink i) hi⟩, Array.size_range,
    fun i => root_of_link (hlink i)⟩
  rw [hlink]
  exact hi

theorem link_addIndex (p : Partition) (i : Nat) : p.addIndex.2.link i = p.link i := by
  simp only [link, addIndex, Array.getD_eq_getD_getElem?, Array.getElem?_push]
  split
  · next hi =>
    have hsize : p.parent.size = i := hi.symm
    rw [Array.getElem?_eq_none (Nat.le_of_eq hsize), Option.getD_some, Option.getD_none, size, hsize]
  · rfl

/-- A new index is its own root, as it was when it did not exist yet. -/
theorem addIndex_spec (hf : p.Forest) :
    p.addIndex.2.Forest ∧ p.addIndex.2.size = p.size + 1 ∧ ∀ i, p.addIndex.2.root i = p.root i := by
  have hlink := link_addIndex p
  have hsize : p.addIndex.2.size = p.size + 1 := Array.size_push _
  have hforest : p.addIndex.2.Forest := by
    obtain ⟨d, hd⟩ := hf.depth
    refine ⟨fun i hi => ?_, d, fun i hi => ?_⟩
    · rw [hlink, hsize]
      rw [hsize] at hi
      rcases Nat.lt_or_eq_of_le (Nat.le_of_lt_succ hi) with hlt | rfl
      · exact Nat.lt_succ_of_lt (hf.link_lt i hlt)
      · rw [link_of_le (Nat.le_refl _)]
        exact hi
    · rw [hlink] at hi ⊢
      exact hd i hi
  refine ⟨hforest, hsize, root_eq_of hforest (fun i => ?_) fun i hi => ?_⟩
  · rw [hlink, root_link hf]
  · rw [hlink] at hi
    exact root_of_link hi

/-- The partitions there are.  Asking whether two indices share a class, and handing out numbers,
shorten paths as `find` does and change nothing else. -/
inductive Reached : Partition → Prop
  | discrete (n : Nat) : Reached (discrete n)
  | addIndex {c : Partition} : Reached c → Reached c.addIndex.2
  | find {c : Partition} {i : Nat} : Reached c → i < c.size → Reached (c.find i).2
  | union {c : Partition} {i j : Nat} : Reached c → i < c.size → j < c.size →
    Reached (c.union i j).2

theorem Reached.forest {c : Partition} (h : c.Reached) : c.Forest := by
  induction h with
  | discrete n => exact (discrete_spec n).1
  | addIndex _ ih => exact (addIndex_spec ih).1
  | find _ _ ih => exact (find_spec ih _).1
  | union _ hi hj ih => exact (union_spec ih hi hj).1

/-- The index is the name of a class. -/
def IsRoot (c : Partition) (r : Nat) : Prop := r < c.size ∧ c.root r = r

theorem isRoot_root (hf : p.Forest) (hi : i < p.size) : p.IsRoot (p.root i) :=
  ⟨root_lt hf hi, root_root hf i⟩

/-! ### Numbers for classes -/

/-- What a numbering knows after the classes with some names were met, latest first: the numbers
handed out are those noted for the names, no two names have the same, and none is left out. -/
structure Numbering.Inv (size : Nat) (names : List Nat) (n : Numbering) : Prop where
  size_known : n.known.size = size
  number : n.classes.map some = names.map fun r => (n.known[r]?).join
  below : ∀ r k : Nat, (n.known[r]?).join = some k → k < n.count
  injective : ∀ r r' k : Nat, (n.known[r]?).join = some k → (n.known[r']?).join = some k → r = r'
  packed : ∀ k, k < n.count → k ∈ n.classes

theorem Numbering.Inv.ne_none {size : Nat} {names : List Nat} {n : Numbering}
    (h : n.Inv size names) {r : Nat} (hr : r ∈ names) : (n.known[r]?).join ≠ none := by
  intro hnone
  have hmem : none ∈ n.classes.map some := by
    rw [h.number]
    exact List.mem_map.2 ⟨r, hr, hnone⟩
  obtain ⟨k, -, hk⟩ := List.mem_map.1 hmem
  cases hk

theorem Numbering.Inv.add {size : Nat} {names : List Nat} {n : Numbering} {r : Nat}
    (h : n.Inv size names) (hr : r < size) : (n.add r).Inv size (r :: names) := by
  unfold Numbering.add
  split
  · next k hk =>
    refine ⟨h.size_known, ?_, h.below, h.injective, fun j hj => ?_⟩
    · rw [List.map_cons, List.map_cons, h.number, hk]
    · exact List.mem_cons_of_mem k (h.packed j hj)
  · next hk =>
    -- a new name gets a number that is larger than all before
    have read : ∀ r', ((n.known.setIfInBounds r (some n.count))[r']?).join =
        if r = r' then some n.count else (n.known[r']?).join := by
      intro r'
      rw [join_setIfInBounds]
      refine if_congr (and_iff_left_of_imp ?_) rfl rfl
      rintro rfl
      exact h.size_known.symm ▸ hr
    refine ⟨?_, ?_, fun r' k hk' => ?_, fun r₁ r₂ k h₁ h₂ => ?_, fun k hk' => ?_⟩
    · rw [Array.size_setIfInBounds, h.size_known]
    · rw [List.map_cons, List.map_cons, h.number, read, if_pos rfl]
      refine congrArg _ (List.map_congr_left fun r' hr' => ?_)
      rw [read, if_neg]
      rintro rfl
      exact h.ne_none hr' hk
    · rw [read] at hk'
      split at hk'
      · cases hk'
        exact Nat.lt_succ_self _
      · exact Nat.lt_succ_of_lt (h.below r' k hk')
    · rw [read] at h₁ h₂
      split at h₁ <;> split at h₂
      · next e₁ e₂ => exact e₁.symm.trans e₂
      · cases h₁
        exact absurd (h.below _ _ h₂) (Nat.lt_irrefl _)
      · cases h₂
        exact absurd (h.below _ _ h₁) (Nat.lt_irrefl _)
      · exact h.injective r₁ r₂ k h₁ h₂
    · rcases Nat.lt_succ_iff_lt_or_eq.1 hk' with hlt | rfl
      · exact List.mem_cons_of_mem _ (h.packed k hlt)
      · exact List.mem_cons_self

theorem Numbering.inv_start (size : Nat) :
    Numbering.Inv size [] { known := Array.replicate size none } := by
  have hnone : ∀ r : Nat, ((Array.replicate size (none : Option Nat))[r]?).join = none := by
    intro r
    rw [Array.getElem?_replicate]
    split <;> rfl
  refine ⟨Array.size_replicate, rfl, fun r k h => ?_, fun r r' k h => ?_, fun k h => ?_⟩
  · rw [hnone] at h
    cases h
  · rw [hnone] at h
    cases h
  · exact absurd h (Nat.not_lt_zero k)

theorem Numbering.Inv.foldl {size : Nat} {f : Nat → Nat} (hf : ∀ i, i < size → f i < size)
    {is : List Nat} (his : ∀ i ∈ is, i < size) {names : List Nat} {n : Numbering}
    (h : n.Inv size names) :
    (is.foldl (fun n i => n.add (f i)) n).Inv size ((is.map f).reverse ++ names) := by
  induction is generalizing names n with
  | nil => exact h
  | cons i is ih =>
    rw [List.forall_mem_cons] at his
    rw [List.map_cons, List.reverse_cons, List.append_assoc]
    exact ih his.2 (h.add (hf i his.1))

/-- **The numbers tell classes apart.** -/
theorem numbering_spec (hf : p.Forest) :
    p.numbering.1.length = p.size ∧ ∀ i j, i < p.size → j < p.size →
      (p.numbering.1[i]? = p.numbering.1[j]? ↔ p.root i = p.root j) := by
  have h := (Numbering.inv_start p.size).foldl (fun i => root_lt hf)
    (fun i hi => List.mem_range.1 hi : ∀ i ∈ List.range p.size, i < p.size)
  have hnumber := congrArg List.reverse h.number
  rw [List.append_nil, ← List.map_reverse, ← List.map_reverse, List.reverse_reverse,
    List.map_map] at hnumber
  -- the number of an index is that of the name of its class
  have hread : ∀ i, i < p.size → p.numbering.1[i]? =
      (((List.range p.size).foldl (fun n i => n.add (p.root i))
        ({ known := Array.replicate p.size none } : Numbering)).known[p.root i]?).join := by
    intro i hi
    have hi' := congrArg (·[i]?) hnumber
    simp only [List.getElem?_map, List.getElem?_range hi, Option.map_some] at hi'
    obtain ⟨k, hk, hnoted⟩ := Option.map_eq_some_iff.1 hi'
    exact hk.trans hnoted
  have hlen : p.numbering.1.length = p.size := by
    have := congrArg List.length hnumber
    rwa [List.length_map, List.length_map, List.length_range] at this
  refine ⟨hlen, fun i j hi hj => ⟨fun heq => ?_, fun heq => ?_⟩⟩
  · obtain ⟨k, hk⟩ : ∃ k, p.numbering.1[i]? = some k :=
      ⟨_, List.getElem?_eq_getElem (hlen.symm ▸ hi)⟩
    exact h.injective _ _ k ((hread i hi).symm.trans hk)
      ((hread j hj).symm.trans (heq.symm.trans hk))
  · rw [hread i hi, hread j hj, heq]

/-- The numbers in use are those below the number of classes. -/
theorem mem_numbering (hf : p.Forest) {k : Nat} : k ∈ p.numbering.1 ↔ k < p.numbering.2 := by
  have h := (Numbering.inv_start p.size).foldl (fun i => root_lt hf)
    (fun i hi => List.mem_range.1 hi : ∀ i ∈ List.range p.size, i < p.size)
  rw [numbering, List.mem_reverse]
  refine ⟨fun hk => ?_, h.packed k⟩
  have hmem := List.mem_map_of_mem (f := some) hk
  rw [h.number] at hmem
  obtain ⟨r, -, hr⟩ := List.mem_map.1 hmem
  exact h.below r k hr

/-! ### Growing classes -/

/-- The second partition is made of the first by joining classes. -/
structure Grows (c c' : Partition) : Prop where
  forest : c'.Forest
  size : c'.size = c.size
  keep : ∀ u v, c.root u = c.root v → c'.root u = c'.root v

theorem Grows.refl {c : Partition} (h : c.Forest) : c.Grows c := ⟨h, rfl, fun _ _ => id⟩

theorem Grows.trans {c c' c'' : Partition} (h : c.Grows c') (h' : c'.Grows c'') : c.Grows c'' where
  forest := h'.forest
  size := h'.size.trans h.size
  keep u v huv := h'.keep u v (h.keep u v huv)

/-- The label is the same for all members of a class. -/
def Labels {α : Type} (f : Nat → α) (c : Partition) : Prop := ∀ i, f (c.root i) = f i

theorem Labels.eq_of_root {α : Type} {f : Nat → α} {c : Partition} (h : Labels f c) {u v : Nat}
    (huv : c.root u = c.root v) : f u = f v := by
  rw [← h u, huv, h v]

variable {c : Partition} {i j : Nat}

/-- The classes named by `r` and `s` became one with the name `t`, and no other changed. -/
structure Joined (c c' : Partition) (r s t : Nat) : Prop where
  forest : c'.Forest
  size : c'.size = c.size
  name : t = r ∨ t = s
  root : ∀ u, c'.root u = if c.root u = r ∨ c.root u = s then t else c.root u

theorem Forest.joined_union (h : c.Forest) (hi : i < c.size) (hj : j < c.size) :
    c.Joined (c.union i j).2 (c.root i) (c.root j) (c.union i j).1 :=
  let ⟨hforest, hsize, hname, hroot⟩ := union_spec h hi hj
  ⟨hforest, hsize, hname, hroot⟩

namespace Joined

variable {c' : Partition} {r s t : Nat}

theorem symm (h : c.Joined c' r s t) : c.Joined c' s r t where
  forest := h.forest
  size := h.size
  name := h.name.symm
  root u := by
    rw [h.root]
    simp only [or_comm]

theorem grows (h : c.Joined c' r s t) : c.Grows c' where
  forest := h.forest
  size := h.size
  keep u v huv := by
    rw [h.root, h.root, huv]

theorem root_eq (h : c.Joined c' r s t) {u v : Nat} (hu : c.root u = r) (hv : c.root v = s) :
    c'.root u = c'.root v := by
  rw [h.root, h.root, if_pos (.inl hu), if_pos (.inr hv)]

/-- What is in one class was so before, or came from the two that were joined. -/
theorem cases (h : c.Joined c' r s t) {u v : Nat} (huv : c'.root u = c'.root v) :
    c.root u = c.root v ∨ c.root u = r ∧ c.root v = s ∨ c.root u = s ∧ c.root v = r := by
  rw [h.root, h.root] at huv
  split at huv <;> split at huv
  · next hu hv =>
    rcases hu with hu | hu <;> rcases hv with hv | hv
    · exact .inl (hu.trans hv.symm)
    · exact .inr (.inl ⟨hu, hv⟩)
    · exact .inr (.inr ⟨hu, hv⟩)
    · exact .inl (hu.trans hv.symm)
  · next hv => exact absurd (huv ▸ h.name) hv
  · next hu _ => exact absurd (huv ▸ h.name) hu
  · exact .inl huv

/-- The class that kept its name took in the other. -/
theorem root_of_name (h : c.Joined c' r s r) (u : Nat) :
    (if c.root u = s then r else c.root u) = c'.root u := by
  rw [h.root]
  by_cases hs : c.root u = s
  · rw [if_pos hs, if_pos (.inr hs)]
  · by_cases hr : c.root u = r
    · rw [if_neg hs, if_pos (.inl hr), hr]
    · rw [if_neg hs, if_neg (not_or.2 ⟨hr, hs⟩)]

/-- The class that gave its name up is the only one that has gone. -/
theorem isRoot_iff (h : c.Joined c' r s r) (hr : c.root r = r) (hs : c.root s = s) (hrs : r ≠ s)
    (x : Nat) : c'.IsRoot x ↔ c.IsRoot x ∧ x ≠ s := by
  unfold IsRoot
  rw [h.size, ← h.root_of_name x, and_assoc]
  refine and_congr_right fun _ => ?_
  constructor
  · intro hx
    split at hx
    · next heq =>
      subst hx
      exact absurd (hr.symm.trans heq) hrs
    · next hne =>
      refine ⟨hx, ?_⟩
      rintro rfl
      exact hne hs
  · rintro ⟨hx, hne⟩
    rw [hx, if_neg hne]

end Joined

theorem Labels.union {α : Type} {f : Nat → α} (hf : Labels f c) (h : c.Forest) (hi : i < c.size)
    (hj : j < c.size) (hij : f i = f j) : Labels f (c.union i j).2 := by
  obtain ⟨-, -, hname, hroot⟩ := union_spec h hi hj
  have hlabel : f (c.union i j).1 = f i := by
    rcases hname with hname | hname
    · rw [hname, hf]
    · rw [hname, hf, hij]
  intro u
  rw [hroot]
  split
  · next hu =>
    rw [hlabel]
    rcases hu with hu | hu
    · exact hf.eq_of_root hu.symm
    · exact hij.trans (hf.eq_of_root hu.symm)
  · exact hf u

end Partition

end ChordalAlloc
