/-
ChordalAlloc/Proofs/PartitionWithin.lean

Looking up classes and joining them without a request that has no answer.

Every link and every rank is read from a table that may not have it, and a
climb may run out of steps.  In a forest with a rank for every index neither
happens (`Whole`).

Looking up the name of a class shortens the way to it, which changes the
forest and no name.  A forest that was asked differs from one that was not in
the links, but not in the names and the ranks, on which all else depends
(`Alike`): joining gives the same name to the same classes in both
(`Alike.union`), and so does numbering (`Alike.pack`).
-/
import ChordalAlloc.Proofs.Histories
import ChordalAlloc.Proofs.Lookups

namespace ChordalAlloc

namespace Partition

/-! ### Climbing -/

/-- Climb to an index without a link, which has to come before the steps are used up. -/
def climbWithin (p : Partition) : Nat → Nat → Option Nat
  | 0, _ => none
  | k + 1, i => do
    let j ← p.parent[i]?
    if j = i then some i else p.climbWithin k j

/-- Hang everything on the way from `i` to `r` directly below `r`. -/
def flattenWithin (p : Partition) (r : Nat) : Nat → Nat → Option Partition
  | 0, _ => none
  | k + 1, i => do
    let j ← p.parent[i]?
    if j = r then some p
    else do
      let parent ← setAt? p.parent i r
      flattenWithin { p with parent } r k j

/-- As `find`, with checked links. -/
def findWithin (p : Partition) (i : Nat) : Option (Nat × Partition) := do
  let r ← p.climbWithin (p.size + 1) i
  let p ← p.flattenWithin r (p.size + 1) i
  pure (r, p)

/-- As `hang`, with checked links and ranks. -/
def hangWithin (p : Partition) (low high : Nat) : Option Partition := do
  let parent ← setAt? p.parent low high
  let x ← p.rank[low]?
  let y ← p.rank[high]?
  let rank ← if x = y then modifyAt? p.rank high fun r => some (bump r) else some p.rank
  pure { parent, rank }

/-- As `union`, with checked links and ranks. -/
def unionWithin (p : Partition) (i j : Nat) : Option (Nat × Partition) := do
  let (ri, p) ← p.findWithin i
  let (rj, p) ← p.findWithin j
  if ri = rj then pure (ri, p)
  else do
    let x ← p.rank[ri]?
    let y ← p.rank[rj]?
    if x < y then (p.hangWithin ri rj).map (rj, ·) else (p.hangWithin rj ri).map (ri, ·)

/-- A forest with a rank for every index. -/
structure Whole (p : Partition) : Prop where
  forest : p.Forest
  ranks : p.rank.size = p.size

variable {p : Partition} {i j k r : Nat}

theorem getElem?_parent (hi : i < p.size) : p.parent[i]? = some (p.link i) := getElem?_eq_getD hi i

theorem climbWithin_eq (hlt : ∀ i, i < p.size → p.link i < p.size) (hi : i < p.size)
    (h : p.link (p.climb k i) = p.climb k i) : p.climbWithin (k + 1) i = some (p.climb k i) := by
  -- the last of the `k + 1` steps only sees that there is no link
  induction k generalizing i with
  | zero =>
    rw [climbWithin, getElem?_parent hi]
    exact if_pos h
  | succ k ih =>
    rw [climbWithin, getElem?_parent hi]
    rw [climb] at h ⊢
    show (if p.link i = i then some i else p.climbWithin (k + 1) (p.link i)) = _
    by_cases hroot : p.link i = i
    · rw [if_pos hroot, if_pos hroot]
    · rw [if_neg hroot] at h ⊢
      rw [if_neg hroot]
      exact ih (hlt i hi) h

theorem flattenWithin_eq (hlt : ∀ i, i < p.size → p.link i < p.size) (hr : p.link r = r)
    (hri : r < p.size) (hi : i < p.size) (h : p.link^[k] i = r) :
    p.flattenWithin r (k + 1) i = some (p.flatten r k i) := by
  induction k generalizing p i with
  | zero =>
    obtain rfl : i = r := h
    rw [flattenWithin, getElem?_parent hi]
    exact if_pos hr
  | succ k ih =>
    rw [flattenWithin, getElem?_parent hi, flatten]
    show (if p.link i = r then some p else _) = _
    by_cases hlink : p.link i = r
    · rw [if_pos hlink, if_pos hlink]
    · rw [if_neg hlink, if_neg hlink, setAt?_eq hi]
      have hset := link_set hi r p.rank
      have hsize : size { p with parent := p.parent.setIfInBounds i r } = p.size :=
        Array.size_setIfInBounds
      -- a link to a root is a shorter way for `i` and leaves the way of its old parent alone
      refine ih (fun j hj => ?_) ?_ (hsize.symm ▸ hri) (hsize.symm ▸ hlt i hi)
        (iterate_link_set hi hr h)
      · rw [hsize] at hj ⊢
        rw [hset]
        split
        · exact hri
        · exact hlt j hj
      · rw [hset, hr, ite_self]

theorem findWithin_eq (hf : p.Forest) (hi : i < p.size) : p.findWithin i = some (p.find i) := by
  have hclimb : p.climbWithin (p.size + 1) i = some (p.root i) :=
    climbWithin_eq hf.link_lt hi (link_root hf i)
  have hflatten : p.flattenWithin (p.root i) (p.size + 1) i = some (p.find i).2 :=
    flattenWithin_eq hf.link_lt (link_root hf i) (root_lt hf hi) hi root_eq_iterate.symm
  rw [findWithin, hclimb, Option.bind_eq_bind, Option.bind_some, hflatten]
  rfl

theorem Whole.find (h : p.Whole) (i : Nat) : (p.find i).2.Whole := by
  obtain ⟨hforest, -, hsize, hrank⟩ := @flatten_spec p i h.forest p.size
  exact ⟨hforest, (congrArg Array.size hrank).trans (h.ranks.trans hsize.symm)⟩

theorem Whole.getElem?_rank (h : p.Whole) (hi : i < p.size) :
    p.rank[i]? = some (p.rank.getD i 0) := getElem?_eq_getD (h.ranks.symm ▸ hi) 0

theorem Whole.hangWithin_eq (h : p.Whole) {low high : Nat} (hlow : low < p.size)
    (hhigh : high < p.size) : p.hangWithin low high = some (p.hang low high) := by
  have hbump : modifyAt? p.rank high (fun r => some (bump r)) = some (p.rank.modify high bump) :=
    modifyAt?_eq (h.ranks.symm ▸ hhigh) fun _ _ => rfl
  simp only [hangWithin, setAt?_eq hlow, h.getElem?_rank hlow, h.getElem?_rank hhigh, hbump,
    Option.bind_eq_bind, Option.bind_some, hang]
  split <;> rfl

theorem Whole.unionWithin_eq (h : p.Whole) (hi : i < p.size) (hj : j < p.size) :
    p.unionWithin i j = some (p.union i j) := by
  obtain ⟨hname, -, -, hsize⟩ := find_find_spec h.forest i j
  have hw := (h.find i).find j
  have hri : p.root i < ((p.find i).2.find j).2.size := hsize.symm ▸ root_lt h.forest hi
  have hrj : p.root j < ((p.find i).2.find j).2.size := hsize.symm ▸ root_lt h.forest hj
  have hfirst := findWithin_eq h.forest hi
  have hsecond := findWithin_eq (h.find i).forest ((find_spec h.forest i).2.2.symm ▸ hj)
  simp only [unionWithin, hfirst, hsecond, Option.bind_eq_bind, Option.bind_some, union]
  rw [show (p.find i).1 = p.root i from rfl, hname, hw.getElem?_rank hri, hw.getElem?_rank hrj,
    hw.hangWithin_eq hri hrj, hw.hangWithin_eq hrj hri]
  simp only [Option.bind_some, Option.map_some, Option.pure_def]
  split
  · rfl
  · split <;> rfl

theorem Whole.union (h : p.Whole) (hi : i < p.size) (hj : j < p.size) :
    (p.union i j).2.Whole := by
  obtain ⟨hforest, hsize, -⟩ := union_spec h.forest hi hj
  refine ⟨hforest, ?_⟩
  have hw := (h.find i).find j
  have hranks : (p.union i j).2.rank.size = ((p.find i).2.find j).2.rank.size := by
    unfold Partition.union
    dsimp only
    split
    · rfl
    · split
      · exact size_rank_hang _ _ _
      · exact size_rank_hang _ _ _
  rw [hranks, hw.ranks, hsize]
  exact (find_find_spec h.forest i j).2.2.2

theorem whole_discrete (n : Nat) : (discrete n).Whole where
  forest := (discrete_spec n).1
  ranks := by
    rw [(discrete_spec n).2.1]
    exact Array.size_replicate

/-! ### Forests that were asked and forests that were not -/

/-- The two forests have the same names and the same ranks. -/
structure Alike (c d : Partition) : Prop where
  forest : c.Forest
  whole : d.Whole
  size : d.size = c.size
  rank : d.rank = c.rank
  root : ∀ i, d.root i = c.root i

variable {c d : Partition}

theorem Whole.alike (h : c.Whole) : c.Alike c := ⟨h.forest, h, rfl, rfl, fun _ => rfl⟩

theorem Alike.find (h : c.Alike d) (hi : i < c.size) :
    ∃ d', d.findWithin i = some (c.root i, d') ∧ c.Alike d' := by
  obtain ⟨-, hroot, hsize, hrank⟩ := @flatten_spec d i h.whole.forest d.size
  refine ⟨(d.find i).2, ?_, h.forest, h.whole.find i, hsize.trans h.size, hrank.trans h.rank,
    fun j => (hroot j).trans (h.root j)⟩
  rw [findWithin_eq h.whole.forest (h.size.symm ▸ hi), ← h.root]
  rfl

/-- The name and the ranks after joining are told by the names and the ranks before. -/
theorem union_name_rank (hf : p.Forest) (i j : Nat) :
    ((p.union i j).1, (p.union i j).2.rank) =
      if p.root i = p.root j then (p.root i, p.rank)
      else if p.rank.getD (p.root i) 0 < p.rank.getD (p.root j) 0 then
        (p.root j, (p.hang (p.root i) (p.root j)).rank)
      else (p.root i, (p.hang (p.root j) (p.root i)).rank) := by
  have hrank : ((p.find i).2.find j).2.rank = p.rank :=
    (flatten_spec (find_spec hf i).1 _).2.2.2.trans (flatten_spec hf _).2.2.2
  unfold union
  dsimp only
  rw [show (p.find i).1 = p.root i from rfl, (find_find_spec hf i j).1, hrank]
  split
  · rw [hrank]
  · split <;> rw [hang, hang, hrank]

theorem Alike.union (h : c.Alike d) (hi : i < c.size) (hj : j < c.size) :
    ∃ d', d.unionWithin i j = some ((c.union i j).1, d') ∧ (c.union i j).2.Alike d' := by
  have hi' : i < d.size := h.size.symm ▸ hi
  have hj' : j < d.size := h.size.symm ▸ hj
  obtain ⟨hforest, hsize, -, hroot⟩ := union_spec h.forest hi hj
  obtain ⟨-, hsize', -, hroot'⟩ := union_spec h.whole.forest hi' hj'
  -- names and ranks decide which class hangs below the other
  have hboth : ((d.union i j).1, (d.union i j).2.rank) =
      ((c.union i j).1, (c.union i j).2.rank) := by
    rw [union_name_rank h.whole.forest, union_name_rank h.forest]
    simp only [h.root, h.rank, hang]
  obtain ⟨hname, hrank⟩ := Prod.mk.inj hboth
  refine ⟨(d.union i j).2, ?_, hforest, h.whole.union hi' hj', ?_, hrank, fun u => ?_⟩
  · rw [h.whole.unionWithin_eq hi' hj', ← hname]
  · rw [hsize, hsize', h.size]
  · rw [hroot, hroot', hname]
    simp only [h.root]

/-! ### Numbering -/

/-- As `add`, with a checked table of numbers. -/
def Numbering.addWithin (n : Numbering) (r : Nat) : Option Numbering := do
  match ← n.known[r]? with
  | some k => pure { n with classes := k :: n.classes }
  | none => do
    let known ← setAt? n.known r (some n.count)
    pure { known, count := n.count + 1, classes := n.count :: n.classes }

/-- Look up the name of the next index and hand it its number. -/
def packNext (s : Numbering × Partition) (i : Nat) : Option (Numbering × Partition) := do
  let (r, p) ← s.2.findWithin i
  let n ← s.1.addWithin r
  pure (n, p)

/-- As `numbering`, with checked tables, while every way is shortened. -/
def packWithin (p : Partition) : Option (List Nat × Nat) := do
  let s ← (List.range p.size).foldlM packNext
    (({ known := Array.replicate p.size none } : Numbering), p)
  pure (s.1.classes.reverse, s.1.count)

theorem Numbering.addWithin_eq {n : Numbering} (hr : r < n.known.size) :
    n.addWithin r = some (n.add r) ∧ (n.add r).known.size = n.known.size := by
  unfold addWithin add
  rw [Array.getElem?_eq_getElem hr, Option.join_some]
  rcases n.known[r] with - | k
  · simp only [Option.bind_eq_bind, Option.bind_some, setAt?_eq hr]
    exact ⟨rfl, Array.size_setIfInBounds⟩
  · exact ⟨rfl, rfl⟩

theorem Alike.pack (h : c.Alike d) : d.packWithin = some c.numbering := by
  obtain ⟨s, hs, hn, -⟩ := foldlM_of_step
    (fun (s : Numbering × Partition) n => s.1 = n ∧ n.known.size = c.size ∧ c.Alike s.2)
    (f := packNext) (g := fun n i => n.add (c.root i)) (by
      rintro i hi ⟨n, d⟩ n' ⟨rfl, hsize, halike⟩
      have hi : i < c.size := List.mem_range.1 hi
      obtain ⟨d', hd', halike'⟩ := halike.find hi
      obtain ⟨hadd, hknown⟩ := Numbering.addWithin_eq (hsize.symm ▸ root_lt h.forest hi)
      refine ⟨(_, d'), ?_, rfl, hknown.trans hsize, halike'⟩
      simp only [packNext, hd', Option.bind_eq_bind, Option.bind_some, hadd]
      rfl)
    (s := (({ known := Array.replicate c.size none } : Numbering), d))
    ⟨rfl, Array.size_replicate, h⟩
  rw [packWithin, h.size, hs, Option.bind_eq_bind, Option.bind_some, hn]
  rfl

end Partition

end ChordalAlloc
