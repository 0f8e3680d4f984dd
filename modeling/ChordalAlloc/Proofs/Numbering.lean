/-
ChordalAlloc/Proofs/Numbering.lean

The numbers of the classes depend on the partition alone.

Numbers are handed out while the name of one index after the other is looked
up, and every look-up shortens the way it takes (`pack?`).  Names do not
change, so what comes out is the numbering of the forest as it was
(`pack?_eq`).

A list numbers classes by first appearance (`FirstSeen`) if equal numbers mean
equal classes, all numbers below their number are in use, and each one exceeds
those before it by one at most.  Then every smaller number was handed out
before (`FirstSeen.grown`), so a class that appears gets the least number not
handed out yet, and two such lists for one partition are equal
(`FirstSeen.unique`).  The names, which do depend on ranks and on the order of
calls, have no say in it.
-/
import ChordalAlloc.Proofs.Histories

namespace ChordalAlloc

namespace Partition

variable {p q : Partition}

/-! ### Numbering and looking up at the same time -/

/-- Look up the name of the next index and hand it its number. -/
def packStep (s : Numbering × Partition) (i : Nat) : Option (Numbering × Partition) := do
  let (r, p) ← s.2.find? i
  return (s.1.add r, p)

/-- The numbers of all indices and how many there are, and the forest with every way shortened. -/
def pack? (p : Partition) : Option ((List Nat × Nat) × Partition) := do
  let (n, q) ← (List.range p.size).foldlM packStep
    (({ known := Array.replicate p.size none } : Numbering), p)
  return ((n.classes.reverse, n.count), q)

theorem packStep_eq (n : Numbering) {i : Nat} (hi : i < p.size) :
    packStep (n, p) i = some (n.add (p.root i), (p.find i).2) := by
  rw [packStep, find?_eq hi]
  rfl

/-- The forest changes under way, and the names that are looked up are those of the start. -/
theorem foldlM_packStep (hf : p.Forest) {is : List Nat} (his : ∀ i ∈ is, i < p.size)
    (n : Numbering) :
    ∃ q, is.foldlM packStep (n, p) = some (is.foldl (fun n i => n.add (p.root i)) n, q) ∧
      q.Forest ∧ (∀ i, q.root i = p.root i) ∧ q.size = p.size := by
  induction is generalizing n p with
  | nil => exact ⟨p, rfl, hf, fun _ => rfl, rfl⟩
  | cons i is ih =>
    obtain ⟨hi, his⟩ := List.forall_mem_cons.1 his
    obtain ⟨hf', hroot', hsize'⟩ := find_spec hf i
    obtain ⟨q, hq, hforest, hroot, hsize⟩ := ih hf' (hsize'.symm ▸ his) (n.add (p.root i))
    refine ⟨q, ?_, hforest, fun j => (hroot j).trans (hroot' j), hsize.trans hsize'⟩
    rw [List.foldlM_cons, packStep_eq n hi]
    refine hq.trans ?_
    simp only [List.foldl_cons, hroot']

/-- **Numbering succeeds, gives the numbers of the forest as it was, and changes no name.** -/
theorem pack?_eq (hf : p.Forest) :
    ∃ q, p.pack? = some (p.numbering, q) ∧ q.Forest ∧ (∀ i, q.root i = p.root i) ∧
      q.size = p.size := by
  have hrange : ∀ i ∈ List.range p.size, i < p.size := fun i hi => List.mem_range.1 hi
  obtain ⟨q, hq, hspec⟩ := foldlM_packStep hf hrange { known := Array.replicate p.size none }
  refine ⟨q, ?_, hspec⟩
  rw [pack?, hq]
  rfl

/-! ### First appearance -/

/-- Below a number, every number occurs earlier. -/
def Grown (ids : List Nat) : Prop :=
  ∀ i k : Nat, ids[i]? = some k → ∀ d, d < k → ∃ j, j < i ∧ ids[j]? = some d

theorem grown_nil : Grown [] := fun i k h => by
  rw [List.getElem?_nil] at h
  cases h

theorem Grown.concat {ids : List Nat} {k : Nat} (h : Grown ids) (hk : ∀ d, d < k → d ∈ ids) :
    Grown (ids ++ [k]) := by
  have hold : ∀ {j d}, ids[j]? = some d → (ids ++ [k])[j]? = some d := fun hj => by
    rw [List.getElem?_append_left (List.getElem?_eq_some_iff.1 hj).1]
    exact hj
  intro i m hi d hd
  rcases Nat.lt_trichotomy i ids.length with hlt | rfl | hgt
  · rw [List.getElem?_append_left hlt] at hi
    obtain ⟨j, hj, hjd⟩ := h i m hi d hd
    exact ⟨j, hj, hold hjd⟩
  · rw [List.getElem?_concat_length] at hi
    cases hi
    obtain ⟨j, hj⟩ := List.mem_iff_getElem?.1 (hk d hd)
    exact ⟨j, (List.getElem?_eq_some_iff.1 hj).1, hold hj⟩
  · rw [List.getElem?_eq_none (by rw [List.length_append]; exact hgt)] at hi
    cases hi

/-- A new number is the number of those in use, and an old one is smaller. -/
theorem Numbering.Inv.grown_add {size : Nat} {names : List Nat} {n : Numbering}
    (h : n.Inv size names) (hgrown : Grown n.classes.reverse) (r : Nat) :
    Grown (n.add r).classes.reverse := by
  have hmem : ∀ {d}, d < n.count → d ∈ n.classes.reverse := fun hd =>
    List.mem_reverse.2 (h.packed _ hd)
  unfold Numbering.add
  split
  · next k hk =>
    rw [List.reverse_cons]
    exact hgrown.concat fun d hd => hmem (hd.trans (h.below r k hk))
  · rw [List.reverse_cons]
    exact hgrown.concat fun d hd => hmem hd

theorem Numbering.Inv.grown_foldl {size : Nat} {f : Nat → Nat} (hf : ∀ i, i < size → f i < size)
    {is : List Nat} (his : ∀ i ∈ is, i < size) {names : List Nat} {n : Numbering}
    (h : n.Inv size names) (hgrown : Grown n.classes.reverse) :
    Grown (is.foldl (fun n i => n.add (f i)) n).classes.reverse := by
  induction is generalizing names n with
  | nil => exact hgrown
  | cons i is ih =>
    rw [List.forall_mem_cons] at his
    exact ih his.2 (h.add (hf i his.1)) (h.grown_add hgrown (f i))

theorem grown_numbering (hf : p.Forest) : Grown p.numbering.1 :=
  (Numbering.inv_start p.size).grown_foldl (fun _ => root_lt hf)
    (fun _ hi => List.mem_range.1 hi) grown_nil

/-- The classes of `n` indices, numbered in the order in which they appear. -/
structure FirstSeen (n : Nat) (same : Nat → Nat → Prop) (ids : List Nat) (count : Nat) : Prop where
  /-- There is a number for every index. -/
  length : ids.length = n
  /-- Indices have the same number exactly if they belong together. -/
  eq_iff : ∀ i j, i < n → j < n → (ids[i]? = ids[j]? ↔ same i j)
  /-- The numbers in use are those below their number. -/
  mem_iff : ∀ k, k ∈ ids ↔ k < count
  /-- The first number is zero. -/
  zero : 0 < n → ids[0]? = some 0
  /-- Every other one exceeds the largest before it by one at most. -/
  next : ∀ i k m : Nat, ids[i]? = some k → (ids.take i).max? = some m → k ≤ m + 1

theorem firstSeen_numbering (hf : p.Forest) :
    FirstSeen p.size (fun i j => p.root i = p.root j) p.numbering.1 p.numbering.2 := by
  obtain ⟨hlength, heq⟩ := numbering_spec hf
  have hgrown := grown_numbering hf
  refine ⟨hlength, heq, fun k => mem_numbering hf, fun hpos => ?_, fun i k m hk hm => ?_⟩
  · obtain ⟨k, hk⟩ : ∃ k, p.numbering.1[0]? = some k :=
      ⟨_, List.getElem?_eq_getElem (hlength.symm ▸ hpos)⟩
    rcases Nat.eq_zero_or_pos k with rfl | hlt
    · exact hk
    · obtain ⟨j, hj, -⟩ := hgrown 0 k hk 0 hlt
      exact absurd hj (Nat.not_lt_zero j)
  · by_contra hgt
    obtain ⟨j, hj, hjm⟩ := hgrown i k hk (m + 1) (Nat.lt_of_not_le hgt)
    have hmem : m + 1 ∈ p.numbering.1.take i :=
      List.mem_iff_getElem?.2 ⟨j, (List.getElem?_take_of_lt hj).trans hjm⟩
    exact Nat.not_succ_le_self m ((List.max?_eq_some_iff.1 hm).2 (m + 1) hmem)

namespace FirstSeen

variable {n : Nat} {same : Nat → Nat → Prop} {ids ids' : List Nat} {count count' : Nat}

theorem congr {same' : Nat → Nat → Prop} (h : FirstSeen n same ids count)
    (hsame : ∀ i j, i < n → j < n → (same i j ↔ same' i j)) : FirstSeen n same' ids count :=
  { h with eq_iff := fun i j hi hj => (h.eq_iff i j hi hj).trans (hsame i j hi hj) }

theorem grown (h : FirstSeen n same ids count) : Grown ids := by
  intro i
  induction i using Nat.strong_induction_on with
  | _ i ih =>
    intro k hk d hd
    obtain ⟨hi, -⟩ := List.getElem?_eq_some_iff.1 hk
    rcases hm : (ids.take i).max? with - | m
    · -- nothing comes before, and the first number is zero
      obtain rfl : i = 0 := by
        have hnil := List.max?_eq_none_iff.1 hm
        rcases List.take_eq_nil_iff.1 hnil with h0 | rfl
        · exact h0
        · exact absurd hi (Nat.not_lt_zero i)
      rw [h.zero (h.length ▸ hi)] at hk
      cases hk
      exact absurd hd (Nat.not_lt_zero d)
    · have hle : d ≤ m := Nat.le_of_lt_succ (Nat.lt_of_lt_of_le hd (h.next i k m hk hm))
      obtain ⟨j, hj⟩ := List.mem_iff_getElem?.1 (List.max?_eq_some_iff.1 hm).1
      rw [List.getElem?_take] at hj
      have hji : j < i := by
        by_contra hge
        rw [if_neg hge] at hj
        cases hj
      rw [if_pos hji] at hj
      rcases Nat.lt_or_eq_of_le hle with hlt | rfl
      · obtain ⟨j', hj', hd'⟩ := ih j hji m hj d hlt
        exact ⟨j', hj'.trans hji, hd'⟩
      · exact ⟨j, hji, hj⟩

/-- A number is at most any other that does not occur before. -/
theorem le_of_new (h : FirstSeen n same ids count) {i k k' : Nat} (hk : ids[i]? = some k)
    (hnew : ∀ j, j < i → ids[j]? ≠ some k') : k ≤ k' := by
  by_contra hlt
  obtain ⟨j, hj, hjk⟩ := h.grown i k hk k' (Nat.lt_of_not_le hlt)
  exact hnew j hj hjk

/-- **There is one numbering by first appearance.** -/
theorem unique (h : FirstSeen n same ids count) (h' : FirstSeen n same ids' count') :
    (ids, count) = (ids', count') := by
  have hread : ∀ i, i < n → ids[i]? = ids'[i]? := by
    intro i
    induction i using Nat.strong_induction_on with
    | _ i ih =>
      intro hi
      obtain ⟨k, hk⟩ : ∃ k, ids[i]? = some k := ⟨_, List.getElem?_eq_getElem (h.length ▸ hi)⟩
      obtain ⟨k', hk'⟩ : ∃ k', ids'[i]? = some k' :=
        ⟨_, List.getElem?_eq_getElem (h'.length ▸ hi)⟩
      by_cases hold : ∃ j, j < i ∧ same i j
      · obtain ⟨j, hj, hsame⟩ := hold
        have hjn := hj.trans hi
        rw [(h.eq_iff i j hi hjn).2 hsame, (h'.eq_iff i j hi hjn).2 hsame]
        exact ih j hj hjn
      · -- a class that appears here gets the least number not in use, in both lists
        have hnew : ∀ j, j < i → ids'[j]? ≠ some k' := fun j hj hjk =>
          hold ⟨j, hj, (h'.eq_iff i j hi (hj.trans hi)).1 (hk'.trans hjk.symm)⟩
        have hnew' : ∀ j, j < i → ids[j]? ≠ some k := fun j hj hjk =>
          hold ⟨j, hj, (h.eq_iff i j hi (hj.trans hi)).1 (hk.trans hjk.symm)⟩
        have hle : k ≤ k' := h.le_of_new hk fun j hj => by
          rw [ih j hj (hj.trans hi)]
          exact hnew j hj
        have hle' : k' ≤ k := h'.le_of_new hk' fun j hj => by
          rw [← ih j hj (hj.trans hi)]
          exact hnew' j hj
        rw [hk, hk', Nat.le_antisymm hle hle']
  have hids : ids = ids' := by
    refine List.ext_getElem? fun i => ?_
    rcases Nat.lt_or_ge i n with hlt | hge
    · exact hread i hlt
    · rw [List.getElem?_eq_none (h.length.symm ▸ hge), List.getElem?_eq_none (h'.length.symm ▸ hge)]
  have hcount : count = count' := by
    refine Nat.le_antisymm (Nat.le_of_not_lt fun hlt => ?_) (Nat.le_of_not_lt fun hlt => ?_)
    · exact Nat.lt_irrefl _ ((h'.mem_iff _).1 (hids ▸ (h.mem_iff _).2 hlt))
    · exact Nat.lt_irrefl _ ((h.mem_iff _).1 (hids ▸ (h'.mem_iff _).2 hlt))
  rw [hids, hcount]

end FirstSeen

/-! ### Histories that number classes too -/

/-- What can be asked of a partition, with the numbers of its classes. -/
inductive Request where
  /-- A call. -/
  | call (c : Call)
  /-- Number the classes. -/
  | pack
deriving DecidableEq, Repr

/-- The partition after a request; none if it names an index that does not exist. -/
def Request.run (p : Partition) : Request → Option Partition
  | .call c => c.run p
  | .pack => p.pack?.map (·.2)

/-- The calls among some requests. -/
def callsOf : List Request → List Call
  | [] => []
  | .call c :: requests => c :: callsOf requests
  | .pack :: requests => callsOf requests

/-- Requests that name existing indices succeed, and numbering leaves no trace in the names. -/
theorem Follows.serve {past : List Call} {requests : List Request} (h : Follows past p)
    (hfit : InRange p.size (callsOf requests)) :
    ∃ q, requests.foldlM Request.run p = some q ∧ Follows (past ++ callsOf requests) q := by
  induction requests generalizing past p with
  | nil => exact ⟨p, rfl, (List.append_nil past).symm ▸ h⟩
  | cons r requests ih =>
    cases r with
    | call c =>
      obtain ⟨p', hrun, h', hsize⟩ := h.run hfit.1
      obtain ⟨q, hruns, hq⟩ := ih h' (hsize.symm ▸ hfit.2)
      refine ⟨q, ?_, ?_⟩
      · rw [List.foldlM_cons, Request.run, hrun]
        exact hruns
      · rwa [List.append_assoc] at hq
    | pack =>
      obtain ⟨p', hpack, hf, hroot, hsize⟩ := pack?_eq h.forest
      have h' : Follows past p' := ⟨hf, fun a b => by rw [hroot, hroot, h.tied]⟩
      obtain ⟨q, hruns, hq⟩ := ih h' (hsize.symm ▸ hfit)
      refine ⟨q, ?_, hq⟩
      rw [List.foldlM_cons, Request.run, hpack]
      exact hruns

/-- Any requests that name existing indices lead to a partition with the right names. -/
theorem exists_of_inRange {count : Nat} {requests : List Request}
    (hfit : InRange count (callsOf requests)) :
    ∃ p, requests.foldlM Request.run (discrete count) = some p ∧
      Follows (callsOf requests) p := by
  have hsize : (discrete count).size = count := (discrete_spec count).2.1
  exact (follows_discrete count).serve (hsize.symm ▸ hfit)

/-- Forests with the same classes have the same numbers. -/
theorem pack?_congr (hp : p.Forest) (hq : q.Forest) (hsize : q.size = p.size)
    (hsame : ∀ i j, i < p.size → j < p.size → (q.root i = q.root j ↔ p.root i = p.root j)) :
    q.pack?.map (·.1) = some p.numbering := by
  obtain ⟨q', hpack, -⟩ := pack?_eq hq
  have hseen := firstSeen_numbering hq
  rw [hsize] at hseen
  rw [hpack, Option.map_some]
  exact congrArg some ((hseen.congr hsame).unique (firstSeen_numbering hp))

/-- **The numbers of the classes are a canonical form of the partition.**  Whatever was asked
before, as long as the indices exist: numbering succeeds, hands out numbers by first appearance and
changes no name; doing it again gives the same numbers, and so does every partition of as many
indices, however it came about, in which the same indices share a class. -/
theorem pack_canonical (count : Nat) (requests : List Request)
    (hfit : InRange count (callsOf requests)) :
    ∃ p ids k q, requests.foldlM Request.run (discrete count) = some p ∧
      p.pack? = some ((ids, k), q) ∧ p.numbering = (ids, k) ∧
      FirstSeen p.size (Tied (callsOf requests)) ids k ∧
      (∀ i j, i < p.size → j < p.size →
        ((p.find i).1 = (p.find j).1 ↔ Tied (callsOf requests) i j)) ∧
      q.size = p.size ∧ (∀ i, i < p.size → (q.find i).1 = (p.find i).1) ∧
      q.pack?.map (·.1) = some (ids, k) ∧
      ∀ count' requests' p', InRange count' (callsOf requests') →
        requests'.foldlM Request.run (discrete count') = some p' → p'.size = p.size →
        (∀ i j, i < p.size → j < p.size →
          ((p'.find i).1 = (p'.find j).1 ↔ (p.find i).1 = (p.find j).1)) →
        p'.pack?.map (·.1) = some (ids, k) := by
  obtain ⟨p, hruns, hp⟩ := exists_of_inRange hfit
  obtain ⟨q, hpack, hf, hroot, hsize⟩ := pack?_eq hp.forest
  refine ⟨p, _, _, q, hruns, hpack, rfl, ?_, fun i j _ _ => hp.tied i j, hsize,
    fun i _ => hroot i, ?_, ?_⟩
  · exact (firstSeen_numbering hp.forest).congr fun i j _ _ => hp.tied i j
  · refine pack?_congr hp.forest hf hsize fun i j _ _ => ?_
    rw [hroot, hroot]
  · intro count' requests' p' hfit' hruns' hsize' hsame
    obtain ⟨p'', hruns'', hp'⟩ := exists_of_inRange hfit'
    obtain rfl : p'' = p' := Option.some.inj (hruns''.symm.trans hruns')
    exact pack?_congr hp.forest hp'.forest hsize' hsame

/-- The classes `{0, 2, 3}` and `{1, 4}`, with numbers asked for in between. -/
def inOrder : List Request :=
  [.call (.union 0 2), .pack, .call (.union 2 3), .call .create, .call (.union 1 4), .pack]

/-- The same classes, joined the other way round: they have other names. -/
def backwards : List Request :=
  [.call (.union 4 1), .call (.same 0 3), .call (.union 3 2), .call (.find 1), .call (.union 0 3)]

/-- The names are others, and the numbers are the same. -/
theorem pack_canonical_inOrder :
    InRange 4 (callsOf inOrder) ∧ InRange 5 (callsOf backwards) ∧
      ∃ p p', inOrder.foldlM Request.run (discrete 4) = some p ∧
        backwards.foldlM Request.run (discrete 5) = some p' ∧
        (p.find 4).1 = 1 ∧ (p'.find 4).1 = 4 ∧
        p.pack?.map (·.1) = some ([0, 1, 0, 0, 1], 2) ∧
        p'.pack?.map (·.1) = p.pack?.map (·.1) := by
  have hfit : InRange 4 (callsOf inOrder) := by
    simp [InRange, callsOf, inOrder, Call.Fits, Call.grow]
  have hfit' : InRange 5 (callsOf backwards) := by
    simp [InRange, callsOf, backwards, Call.Fits, Call.grow]
  have hruns' : backwards.foldlM Request.run (discrete 5)
      = some ⟨#[3, 4, 3, 3, 4], #[0, 0, 0, 1, 1]⟩ := by decide +kernel
  have hp : inOrder.foldlM Request.run (discrete 4)
      = some ⟨#[0, 1, 0, 0, 1], #[1, 1, 0, 0, 0]⟩ := by decide +kernel
  obtain ⟨p, ids, k, q, hruns, hpack, -, -, -, -, -, -, hcanon⟩ := pack_canonical 4 inOrder hfit
  obtain rfl := Option.some.inj (hruns.symm.trans hp)
  have hsame : ∀ i < 5, ∀ j < 5,
      ((Partition.find ⟨#[3, 4, 3, 3, 4], #[0, 0, 0, 1, 1]⟩ i).1 =
          (Partition.find ⟨#[3, 4, 3, 3, 4], #[0, 0, 0, 1, 1]⟩ j).1 ↔
        (Partition.find ⟨#[0, 1, 0, 0, 1], #[1, 1, 0, 0, 0]⟩ i).1 =
          (Partition.find ⟨#[0, 1, 0, 0, 1], #[1, 1, 0, 0, 0]⟩ j).1) := by decide +kernel
  have hother := hcanon 5 backwards _ hfit' hruns' rfl fun i j hi hj => hsame i hi j hj
  refine ⟨hfit, hfit', _, _, hruns, hruns', by decide +kernel, by decide +kernel,
    by decide +kernel, ?_⟩
  rw [hother, hpack]
  rfl

end Partition

end ChordalAlloc
