/-
ChordalAlloc/Proofs/Histories.lean

A partition remembers which indices were joined, whatever was asked of it in
between.

Looking up the name of a class is two loops: one climbs to the root, one hangs
everything on the way directly below it.  Both end (`root_mem_eval`,
`flatten_mem_eval`); the second takes no more rounds than the first, because
what it changes only makes the way to the root shorter.

After any calls that name existing indices, two indices have the same name
exactly if a chain of joined pairs leads from one to the other (`Follows`).  One
call keeps this up (`Follows.run`): only joining changes names, and it changes
them as adding a pair changes the chains.  What a partition with this property
answers next is `Answers`.
-/
import Mathlib.Logic.Relation
import ChordalAlloc.Proofs.Partition

namespace ChordalAlloc

namespace Partition

variable {p q : Partition} {i j : Nat}

/-! ### Looking up a name -/

/-- One link up, until there is none. -/
def climbStep (p : Partition) (i : Nat) : Option Nat :=
  if p.link i = i then none else some (p.link i)

theorem climb_mem_eval {k : Nat} (h : p.link (p.climb k i) = p.climb k i) :
    p.climb k i ∈ StateTransition.eval p.climbStep i := by
  induction k generalizing i with
  | zero => exact mem_eval_of_none (if_pos h)
  | succ k ih =>
    rw [climb] at h ⊢
    by_cases hi : p.link i = i
    · rw [if_pos hi]
      exact mem_eval_of_none (if_pos hi)
    · rw [if_neg hi] at h ⊢
      exact mem_eval_of_some (if_neg hi) (ih h)

/-- The climb to the root ends there. -/
theorem root_mem_eval (hf : p.Forest) (i : Nat) : p.root i ∈ StateTransition.eval p.climbStep i :=
  climb_mem_eval (link_root hf i)

/-- Hang an index below `r` and go on with what it hung below before, until one is found that hangs
there already. -/
def flattenStep (r : Nat) (s : Partition × Nat) : Option (Partition × Nat) :=
  if s.1.link s.2 = r then none
  else some ({ s.1 with parent := s.1.parent.setIfInBounds s.2 r }, s.1.link s.2)

/-- Hanging an index below a root leaves the ways to that root as short as they were. -/
theorem iterate_link_set {r k : Nat} (hi : i < p.size) (hr : p.link r = r)
    (h : p.link^[k] j = r) :
    (Partition.mk (p.parent.setIfInBounds i r) p.rank).link^[k] j = r := by
  have hlink := link_set hi r p.rank
  have hfix : (Partition.mk (p.parent.setIfInBounds i r) p.rank).link r = r := by
    rw [hlink, hr, ite_self]
  induction k generalizing j with
  | zero => exact h
  | succ k ih =>
    rw [Function.iterate_succ_apply] at h ⊢
    by_cases hj : j = i
    · rw [hlink, if_pos hj]
      exact Function.iterate_fixed hfix k
    · rw [hlink, if_neg hj]
      exact ih h

/-- The way to a root is shortened in as many rounds as it has links. -/
theorem flatten_mem_eval {r k : Nat} (hr : p.link r = r) (h : p.link^[k] i = r) :
    ∃ s ∈ StateTransition.eval (flattenStep r) (p, i), s.1 = p.flatten r k i := by
  induction k generalizing p i with
  | zero =>
    obtain rfl : i = r := h
    exact ⟨(p, i), mem_eval_of_none (if_pos hr), rfl⟩
  | succ k ih =>
    rw [flatten]
    by_cases hi : p.link i = r
    · rw [if_pos hi]
      exact ⟨(p, i), mem_eval_of_none (if_pos hi), rfl⟩
    · rw [if_neg hi]
      rw [Function.iterate_succ_apply] at h
      have hlt : i < p.size := by
        by_contra hge
        have hfix := link_of_le (Nat.le_of_not_lt hge)
        rw [hfix, Function.iterate_fixed hfix] at h
        exact hi (hfix.trans h)
      have hr' := iterate_link_set (k := 1) hlt hr hr
      obtain ⟨s, hs, heq⟩ := ih hr' (iterate_link_set hlt hr h)
      exact ⟨s, mem_eval_of_some (if_neg hi) hs, heq⟩

/-! ### Calls -/

/-- What can be asked of a partition. -/
inductive Call where
  /-- Add an index in a class of its own. -/
  | create
  /-- Name the class of an index. -/
  | find (i : Nat)
  /-- Join the classes of two indices. -/
  | union (i j : Nat)
  /-- Say whether two indices share a class. -/
  | same (i j : Nat)
deriving DecidableEq, Repr

/-- Whether two indices share a class, found out by looking up both names one after the other, and
the forest with both ways shortened. -/
def ask (p : Partition) (i j : Nat) : Option (Bool × Partition) := do
  let (ri, p) ← p.find? i
  let (rj, p) ← p.find? j
  return (ri == rj, p)

/-- The partition after a call; none if the call names an index that does not exist. -/
def Call.run (p : Partition) : Call → Option Partition
  | .create => some p.addIndex.2
  | .find i => (p.find? i).map (·.2)
  | .union i j => (p.union? i j).map (·.2)
  | .same i j => (p.ask i j).map (·.2)

/-- The call names indices below `n` only. -/
def Call.Fits (n : Nat) : Call → Prop
  | .create => True
  | .find i => i < n
  | .union i j => i < n ∧ j < n
  | .same i j => i < n ∧ j < n

/-- How many indices there are after a call. -/
def Call.grow (n : Nat) : Call → Nat
  | .create => n + 1
  | _ => n

/-- Every call names indices that exist by then, if there are `n` at the start. -/
def InRange : Nat → List Call → Prop
  | _, [] => True
  | n, c :: calls => c.Fits n ∧ InRange (c.grow n) calls

/-- A chain of pairs that were joined leads from one index to the other. -/
def Tied (calls : List Call) : Nat → Nat → Prop :=
  Relation.EqvGen fun x y => Call.union x y ∈ calls

theorem find?_eq (hi : i < p.size) : p.find? i = some (p.find i) := if_pos hi

theorem union?_eq (hi : i < p.size) (hj : j < p.size) : p.union? i j = some (p.union i j) :=
  if_pos ⟨hi, hj⟩

theorem same?_eq (hi : i < p.size) (hj : j < p.size) : p.same? i j = some (p.same i j) :=
  if_pos ⟨hi, hj⟩

/-- Looking up both names gives the same answer as comparing the roots. -/
theorem ask_eq (hf : p.Forest) (hi : i < p.size) (hj : j < p.size) :
    p.ask i j = some (p.same i j, ((p.find i).2.find j).2) := by
  have hsize := (find_spec hf i).2.2
  rw [ask, find?_eq hi]
  show ((p.find i).2.find? j).bind _ = _
  rw [find?_eq (hsize.symm ▸ hj)]
  show some ((p.find i).1 == ((p.find i).2.find j).1, _) = _
  rw [(find_find_spec hf i j).1]
  rfl

/-! ### What a history leaves behind -/

/-- Names agree exactly if a chain of joined pairs leads from one index to the other. -/
structure Follows (calls : List Call) (p : Partition) : Prop where
  forest : p.Forest
  tied : ∀ a b, p.root a = p.root b ↔ Tied calls a b

theorem follows_discrete (n : Nat) : Follows [] (discrete n) := by
  obtain ⟨hf, -, hroot⟩ := discrete_spec n
  refine ⟨hf, fun a b => ?_⟩
  rw [hroot, hroot]
  constructor
  · rintro rfl
    exact .refl a
  · intro h
    refine eq_equivalence.eqvGen_iff.1 (h.mono fun x y hxy => ?_)
    exact absurd hxy List.not_mem_nil

/-- A call that joins nothing and changes no name. -/
theorem Follows.keep {calls : List Call} {c : Call} (h : Follows calls p) (hf : q.Forest)
    (hroot : ∀ a, q.root a = p.root a) (hc : ∀ x y, Call.union x y ≠ c) :
    Follows (calls ++ [c]) q := by
  -- there are as many joined pairs as before
  have hmem : (fun x y => Call.union x y ∈ calls ++ [c]) = fun x y => Call.union x y ∈ calls := by
    funext x y
    simp [hc x y]
  refine ⟨hf, fun a b => ?_⟩
  rw [hroot, hroot, h.tied, Tied, Tied, hmem]

/-- A call that joins two classes. -/
theorem Follows.join {calls : List Call} {t : Nat} (h : Follows calls p)
    (hjoined : p.Joined q (p.root i) (p.root j) t) : Follows (calls ++ [.union i j]) q := by
  have hmono : ∀ {a b}, Tied calls a b → Tied (calls ++ [.union i j]) a b := fun hab =>
    hab.mono fun x y hxy => List.mem_append_left _ hxy
  have hnew : Tied (calls ++ [.union i j]) i j := .rel i j (by simp)
  refine ⟨hjoined.forest, fun a b => ⟨fun hab => ?_, fun hab => ?_⟩⟩
  · rcases hjoined.cases hab with hab | ⟨ha, hb⟩ | ⟨ha, hb⟩
    · exact hmono ((h.tied a b).1 hab)
    · have hai := hmono ((h.tied a i).1 ha)
      have hjb := hmono ((h.tied j b).1 hb.symm)
      exact (hai.trans _ _ _ hnew).trans _ _ _ hjb
    · have haj := hmono ((h.tied a j).1 ha)
      have hib := hmono ((h.tied i b).1 hb.symm)
      exact (haj.trans _ _ _ (hnew.symm _ _)).trans _ _ _ hib
  · -- the names agree on every pair that was joined, so they do along every chain
    refine (eq_equivalence.comap q.root).eqvGen_iff.1 (hab.mono fun x y hxy => ?_)
    rcases List.mem_append.1 hxy with hold | hlast
    · exact hjoined.grows.keep x y ((h.tied x y).2 (.rel x y hold))
    · obtain ⟨rfl, rfl⟩ := Call.union.inj (List.mem_singleton.1 hlast)
      exact hjoined.root_eq rfl rfl

/-- One call succeeds, if it names existing indices, and leaves the right names behind. -/
theorem Follows.run {calls : List Call} {c : Call} (h : Follows calls p) (hc : c.Fits p.size) :
    ∃ q, c.run p = some q ∧ Follows (calls ++ [c]) q ∧ q.size = c.grow p.size := by
  cases c with
  | create =>
    obtain ⟨hf, hsize, hroot⟩ := addIndex_spec h.forest
    exact ⟨_, rfl, h.keep hf hroot (fun _ _ h => by cases h), hsize⟩
  | find i =>
    obtain ⟨hf, hroot, hsize⟩ := find_spec h.forest i
    refine ⟨(p.find i).2, ?_, h.keep hf hroot (fun _ _ h => by cases h), hsize⟩
    rw [Call.run, find?_eq hc, Option.map_some]
  | union i j =>
    have hjoined := h.forest.joined_union hc.1 hc.2
    refine ⟨(p.union i j).2, ?_, h.join hjoined, hjoined.size⟩
    rw [Call.run, union?_eq hc.1 hc.2, Option.map_some]
  | same i j =>
    obtain ⟨-, hf, hroot, hsize⟩ := find_find_spec h.forest i j
    refine ⟨((p.find i).2.find j).2, ?_, h.keep hf hroot (fun _ _ h => by cases h), hsize⟩
    rw [Call.run, ask_eq h.forest hc.1 hc.2, Option.map_some]

/-- So do any number of calls. -/
theorem Follows.runs {past calls : List Call} (h : Follows past p) (hfit : InRange p.size calls) :
    ∃ q, calls.foldlM Call.run p = some q ∧ Follows (past ++ calls) q ∧
      q.size = calls.foldl Call.grow p.size := by
  induction calls generalizing past p with
  | nil => exact ⟨p, rfl, (List.append_nil past).symm ▸ h, rfl⟩
  | cons c calls ih =>
    obtain ⟨p', hrun, h', hsize⟩ := h.run hfit.1
    obtain ⟨q, hruns, hq, hqsize⟩ := ih h' (hsize.symm ▸ hfit.2)
    refine ⟨q, ?_, ?_, ?_⟩
    · rw [List.foldlM_cons, hrun]
      exact hruns
    · rwa [List.append_assoc] at hq
    · rw [hqsize, hsize, List.foldl_cons]

/-! ### What it answers -/

/-- What a partition answers to the next call, and what becomes of the names, if `tied` says which
indices belong together. -/
structure Answers (p : Partition) (tied : Nat → Nat → Prop) : Prop where
  /-- Both loops of a look-up end, the first one with the name and the second one with the forest
  that are the answer. -/
  ends : ∀ a, a < p.size → ∃ r q, p.find? a = some (r, q) ∧
    r ∈ StateTransition.eval p.climbStep a ∧
    ∃ s ∈ StateTransition.eval (flattenStep r) (p, a), s.1 = q
  /-- Two indices have the same name exactly if they belong together. -/
  name_eq : ∀ a b, a < p.size → b < p.size → ((p.find a).1 = (p.find b).1 ↔ tied a b)
  /-- The name of an index belongs with it, and names itself. -/
  name : ∀ a, a < p.size → (p.find a).1 < p.size ∧ tied (p.find a).1 a ∧
    ((p.find a).2.find (p.find a).1).1 = (p.find a).1
  /-- Looking a name up changes no name. -/
  find : ∀ a, a < p.size → (p.find a).2.size = p.size ∧
    ∀ c, c < p.size → ((p.find a).2.find c).1 = (p.find c).1
  /-- Whether two indices share a class is answered rightly, and changes no name. -/
  same : ∀ a b, a < p.size → b < p.size → ∃ yes q, p.ask a b = some (yes, q) ∧
    p.same? a b = some yes ∧ (yes = true ↔ tied a b) ∧ q.size = p.size ∧
    ∀ c, c < p.size → (q.find c).1 = (p.find c).1
  /-- Joining answers with one of the two names, which is the name of both from then on, and
  changes no name outside the two classes. -/
  union : ∀ a b, a < p.size → b < p.size → ∃ r q, p.union? a b = some (r, q) ∧
    (r = (p.find a).1 ∨ r = (p.find b).1) ∧ (q.find a).1 = r ∧ (q.find b).1 = r ∧
    q.size = p.size ∧
    ∀ c, c < p.size → ¬ tied a c → ¬ tied b c → (q.find c).1 = (p.find c).1
  /-- A new index has a class of its own, and no name changes. -/
  create : p.addIndex.1 = p.size ∧ p.addIndex.2.size = p.size + 1 ∧
    (p.addIndex.2.find p.size).1 = p.size ∧
    ∀ c, c < p.size → (p.addIndex.2.find c).1 = (p.find c).1 ∧ (p.addIndex.2.find c).1 ≠ p.size

theorem Follows.answers {calls : List Call} (h : Follows calls p) : p.Answers (Tied calls) where
  ends a ha := by
    refine ⟨_, _, find?_eq ha, root_mem_eval h.forest a, ?_⟩
    exact flatten_mem_eval (link_root h.forest a) root_eq_iterate.symm
  name_eq a b _ _ := h.tied a b
  name a ha := by
    refine ⟨root_lt h.forest ha, (h.tied _ a).1 (root_root h.forest a), ?_⟩
    exact ((find_spec h.forest a).2.1 _).trans (root_root h.forest a)
  find a _ :=
    let ⟨_, hroot, hsize⟩ := find_spec h.forest a
    ⟨hsize, fun c _ => hroot c⟩
  same a b ha hb := by
    obtain ⟨-, -, hroot, hsize⟩ := find_find_spec h.forest a b
    refine ⟨_, _, ask_eq h.forest ha hb, same?_eq ha hb, ?_, hsize, fun c _ => hroot c⟩
    rw [Partition.same, beq_iff_eq]
    exact h.tied a b
  union a b ha hb := by
    have hjoined := h.forest.joined_union ha hb
    refine ⟨_, _, union?_eq ha hb, hjoined.name, ?_, ?_, hjoined.size, fun c _ hac hbc => ?_⟩
    · exact (hjoined.root a).trans (if_pos (.inl rfl))
    · exact (hjoined.root b).trans (if_pos (.inr rfl))
    · refine (hjoined.root c).trans (if_neg ?_)
      rintro (hca | hcb)
      · exact hac ((h.tied a c).1 hca.symm)
      · exact hbc ((h.tied b c).1 hcb.symm)
  create := by
    obtain ⟨-, hsize, hroot⟩ := addIndex_spec h.forest
    refine ⟨rfl, hsize, ?_, fun c hc => ⟨hroot c, ?_⟩⟩
    · exact (hroot p.size).trans (root_of_link (link_of_le (Nat.le_refl _)))
    · exact fun heq => Nat.ne_of_lt (root_lt h.forest hc) ((hroot c).symm.trans heq)

/-- **A partition is the equivalence closure of what was joined.**  Whatever is asked of it, as long
as the indices exist: every call succeeds, and after all of them names are the same exactly for
indices that a chain of joined pairs connects.  Every look-up ends, with a member of the class
that names itself; look-ups and comparisons change no name, joining changes those of two classes
into one of their names, and a new index stands for itself. -/
theorem calls_refine (count : Nat) (calls : List Call) (hfit : InRange count calls) :
    ∃ p, calls.foldlM Call.run (discrete count) = some p ∧
      p.size = calls.foldl Call.grow count ∧ p.Answers (Tied calls) := by
  have hsize : (discrete count).size = count := (discrete_spec count).2.1
  obtain ⟨p, hruns, hp, hpsize⟩ := (follows_discrete count).runs (hsize.symm ▸ hfit)
  rw [hsize] at hpsize
  exact ⟨p, hruns, hpsize, hp.answers⟩

/-- Two pairs are joined, one of them with a new index, and later an index of each. -/
def crossing : List Call := [.union 0 1, .create, .union 3 2, .same 0 3, .find 1, .union 1 3]

/-- In the end the two indices that were never named together have one name. -/
theorem calls_refine_crossing :
    InRange 3 crossing ∧ ∃ p, crossing.foldlM Call.run (discrete 3) = some p ∧ p.size = 4 ∧
      p.Answers (Tied crossing) ∧ (p.find 0).1 = (p.find 2).1 := by
  have hfit : InRange 3 crossing := by simp [InRange, crossing, Call.Fits, Call.grow]
  obtain ⟨p, hruns, hsize, hp⟩ := calls_refine 3 crossing hfit
  have hfour : p.size = 4 := hsize
  refine ⟨hfit, p, hruns, hfour, hp, (hp.name_eq 0 2 (by omega) (by omega)).2 ?_⟩
  have h01 : Tied crossing 0 1 := .rel 0 1 (by decide)
  have h13 : Tied crossing 1 3 := .rel 1 3 (by decide)
  have h32 : Tied crossing 3 2 := .rel 3 2 (by decide)
  exact (h01.trans _ _ _ h13).trans _ _ _ h32

end Partition

end ChordalAlloc
