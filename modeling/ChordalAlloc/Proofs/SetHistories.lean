/-
ChordalAlloc/Proofs/SetHistories.lean

Sets of indices are finite sets, whatever is done with them.

The same calls are run on a store of finite sets (`Members`), on a store of the
sets that the analyses use, and on a store of sets in words.  A representation
is the record of its operations (`SetOps`).  A map between representations that
commutes with every operation (`SetOps.Hom`) commutes with every call, hence
with every history (`SetOps.Hom.runs`), answers included.  There are two such
maps, from a set to its members (`hom_toMembers`) and from a set to its words
(`hom_toWords`), so in the end the three stores hold the same sets and all
questions have been answered alike.

Calls that name sets of the store, insert below the capacity and combine sets
of one capacity succeed (`exists_runs`).
-/
import Mathlib.Data.Finset.Basic
import ChordalAlloc.Proofs.Words

namespace ChordalAlloc

/-! ### Calls on a store of sets -/

/-- The operations of a representation of sets.  Those that may change a set say whether they
did, and those that may not fit answer `none`. -/
structure SetOps (σ : Type) where
  empty : Nat → σ
  ofList : Nat → List Nat → σ
  insert? : σ → Nat → Option (Bool × σ)
  remove : σ → Nat → Bool × σ
  clear : σ → σ
  union? : σ → σ → Option (Bool × σ)
  diff? : σ → σ → Option (Bool × σ)
  meet? : σ → σ → Option σ

/-- What can be done with sets that are named by their positions in a store. -/
inductive SetCall where
  /-- Add a set of capacity `n` without members. -/
  | new (n : Nat)
  /-- Add a set of capacity `n` with the members of a list that fit. -/
  | ofList (n : Nat) (is : List Nat)
  /-- Add an index to a set. -/
  | insert (x i : Nat)
  /-- Take an index out of a set. -/
  | remove (x i : Nat)
  /-- Drop all members of a set. -/
  | clear (x : Nat)
  /-- Join the second set to the first. -/
  | union (x y : Nat)
  /-- Take the members of the second set out of the first. -/
  | diff (x y : Nat)
  /-- Add the meet of two sets, which is their union. -/
  | meet (x y : Nat)
deriving DecidableEq, Repr

variable {σ τ : Type}

/-- What a call answers, if it asks anything, and the store after it; none if it does not fit. -/
def SetCall.run (o : SetOps σ) (store : List σ) : SetCall → Option (Option Bool × List σ)
  | .new n => some (none, store ++ [o.empty n])
  | .ofList n is => some (none, store ++ [o.ofList n is])
  | .insert x i =>
    (store[x]?).bind fun s => (o.insert? s i).map fun r => (some r.1, store.set x r.2)
  | .remove x i => (store[x]?).map fun s => (some (o.remove s i).1, store.set x (o.remove s i).2)
  | .clear x => (store[x]?).map fun s => (none, store.set x (o.clear s))
  | .union x y => (store[x]?).bind fun s => (store[y]?).bind fun t =>
    (o.union? s t).map fun r => (some r.1, store.set x r.2)
  | .diff x y => (store[x]?).bind fun s => (store[y]?).bind fun t =>
    (o.diff? s t).map fun r => (some r.1, store.set x r.2)
  | .meet x y => (store[x]?).bind fun s => (store[y]?).bind fun t =>
    (o.meet? s t).map fun r => (none, store ++ [r])

/-- All answers of a history and the store after it. -/
def SetOps.runs (o : SetOps σ) : List SetCall → List σ → Option (List (Option Bool) × List σ)
  | [], store => some ([], store)
  | c :: calls, store => (c.run o store).bind fun r =>
    (o.runs calls r.2).map fun r' => (r.1 :: r'.1, r'.2)

/-- A map between representations that every operation respects. -/
structure SetOps.Hom (o : SetOps σ) (o' : SetOps τ) (f : σ → τ) : Prop where
  empty : ∀ n, f (o.empty n) = o'.empty n
  ofList : ∀ n is, f (o.ofList n is) = o'.ofList n is
  insert? : ∀ s i, o'.insert? (f s) i = (o.insert? s i).map (Prod.map id f)
  remove : ∀ s i, o'.remove (f s) i = Prod.map id f (o.remove s i)
  clear : ∀ s, f (o.clear s) = o'.clear (f s)
  union? : ∀ s t, o'.union? (f s) (f t) = (o.union? s t).map (Prod.map id f)
  diff? : ∀ s t, o'.diff? (f s) (f t) = (o.diff? s t).map (Prod.map id f)
  meet? : ∀ s t, o'.meet? (f s) (f t) = (o.meet? s t).map f

namespace SetOps.Hom

variable {o : SetOps σ} {o' : SetOps τ} {f : σ → τ}

theorem run (h : o.Hom o' f) (store : List σ) (c : SetCall) :
    c.run o' (store.map f) = (c.run o store).map (Prod.map id (List.map f)) := by
  cases c with
  | new n => simp [SetCall.run, h.empty]
  | ofList n is => simp [SetCall.run, h.ofList]
  | insert x i =>
    rcases hx : store[x]? with - | s
    · simp [SetCall.run, hx]
    · simp [SetCall.run, hx, h.insert?, Function.comp_def]
  | remove x i =>
    rcases hx : store[x]? with - | s
    · simp [SetCall.run, hx]
    · simp [SetCall.run, hx, h.remove]
  | clear x =>
    rcases hx : store[x]? with - | s
    · simp [SetCall.run, hx]
    · simp [SetCall.run, hx, h.clear]
  | union x y =>
    rcases hx : store[x]? with - | s
    · simp [SetCall.run, hx]
    · rcases hy : store[y]? with - | t
      · simp [SetCall.run, hx, hy]
      · simp [SetCall.run, hx, hy, h.union?, Function.comp_def]
  | diff x y =>
    rcases hx : store[x]? with - | s
    · simp [SetCall.run, hx]
    · rcases hy : store[y]? with - | t
      · simp [SetCall.run, hx, hy]
      · simp [SetCall.run, hx, hy, h.diff?, Function.comp_def]
  | meet x y =>
    rcases hx : store[x]? with - | s
    · simp [SetCall.run, hx]
    · rcases hy : store[y]? with - | t
      · simp [SetCall.run, hx, hy]
      · simp [SetCall.run, hx, hy, h.meet?, Function.comp_def]

/-- **A map that respects every operation respects every history.** -/
theorem runs (h : o.Hom o' f) (calls : List SetCall) (store : List σ) :
    o'.runs calls (store.map f) = (o.runs calls store).map (Prod.map id (List.map f)) := by
  induction calls generalizing store with
  | nil => rfl
  | cons c calls ih =>
    rw [SetOps.runs, SetOps.runs, h.run]
    rcases hc : c.run o store with - | ⟨a, store'⟩
    · rfl
    · simp [ih, Function.comp_def]

end SetOps.Hom

/-! ### Finite sets -/

/-- A finite set of indices, with a capacity. -/
@[ext]
structure Members where
  /-- The bound that goes with the set. -/
  capacity : Nat
  /-- The indices in the set. -/
  members : Finset Nat

instance : DecidableEq Members := fun _ _ => decidable_of_iff _ Members.ext_iff.symm

/-- The operations on finite sets.  Whether a set changed is found out by comparing it. -/
def Members.ops : SetOps Members where
  empty n := ⟨n, ∅⟩
  ofList n is := ⟨n, is.toFinset.filter (· < n)⟩
  insert? a i :=
    if i < a.capacity then
      some (decide (insert i a.members ≠ a.members), ⟨a.capacity, insert i a.members⟩)
    else none
  remove a i := (decide (a.members.erase i ≠ a.members), ⟨a.capacity, a.members.erase i⟩)
  clear a := ⟨a.capacity, ∅⟩
  union? a b :=
    if a.capacity = b.capacity then
      some (decide (a.members ∪ b.members ≠ a.members), ⟨a.capacity, a.members ∪ b.members⟩)
    else none
  diff? a b :=
    if a.capacity = b.capacity then
      some (decide (a.members \ b.members ≠ a.members), ⟨a.capacity, a.members \ b.members⟩)
    else none
  meet? a b :=
    if a.capacity = b.capacity then some ⟨a.capacity, a.members ∪ b.members⟩ else none

/-- The operations on sets in words. -/
def WordSet.ops : SetOps WordSet where
  empty := empty
  ofList := ofList
  insert? := insert?
  remove := remove
  clear := clear
  union? := union?
  diff? := diff?
  meet? := meet?

namespace IndexSet

/-- The operations on sets of indices. -/
def ops : SetOps IndexSet where
  empty := empty
  ofList := ofList
  insert? := insert?
  remove := remove
  clear := clear
  union? := union?
  diff? := diff?
  meet? := meet?

/-- The finite set that is meant. -/
def toMembers (s : IndexSet) : Members := ⟨s.capacity, s.toList.toFinset⟩

variable {s t : IndexSet} {i : Nat}

theorem mem_toMembers : i ∈ s.toMembers.members ↔ s.contains i = true := by
  rw [toMembers, List.mem_toFinset, mem_toList]

/-- Sets with one capacity and the same members are equal. -/
theorem toMembers_inj : s.toMembers = t.toMembers ↔ s = t := by
  refine ⟨fun h => ext_contains (congrArg Members.capacity h) fun i => ?_, congrArg toMembers⟩
  rw [Bool.eq_iff_iff, ← mem_toMembers, ← mem_toMembers, h]

theorem members_eq {a : Finset Nat} (h : ∀ i, s.contains i = true ↔ i ∈ a) :
    s.toMembers.members = a :=
  Finset.ext fun i => mem_toMembers.trans (h i)

theorem members_insert (hi : i < s.capacity) :
    (s.insert i).toMembers.members = Insert.insert i s.toMembers.members := by
  refine members_eq fun j => ?_
  rw [contains_insert, Finset.mem_insert, mem_toMembers, Bool.or_eq_true, decide_eq_true_eq,
    or_comm]
  refine or_congr_left ⟨fun h => h.1.symm, ?_⟩
  rintro rfl
  exact ⟨rfl, hi⟩

theorem members_erase (s : IndexSet) (i : Nat) :
    (s.erase i).toMembers.members = s.toMembers.members.erase i := by
  refine members_eq fun j => ?_
  rw [contains_erase, Finset.mem_erase, mem_toMembers, Bool.and_eq_true, Bool.not_eq_true',
    decide_eq_false_iff_not, and_comm, ne_comm]

theorem members_union (h : s.capacity = t.capacity) :
    (s.union t).toMembers.members = s.toMembers.members ∪ t.toMembers.members := by
  refine members_eq fun j => ?_
  rw [contains_union, Finset.mem_union, mem_toMembers, mem_toMembers, Bool.or_eq_true,
    Bool.and_eq_true, decide_eq_true_eq]
  exact or_congr_right (and_iff_left_of_imp fun hj => h ▸ lt_capacity hj)

theorem members_diff (s t : IndexSet) :
    (s.diff t).toMembers.members = s.toMembers.members \ t.toMembers.members := by
  refine members_eq fun j => ?_
  rw [contains_diff, Finset.mem_sdiff, mem_toMembers, mem_toMembers]
  simp

/-- A set of the same capacity is another one exactly if its members are others. -/
theorem bne_eq_decide {a : Finset Nat} (hcap : t.capacity = s.capacity)
    (ha : t.toMembers.members = a) : (t != s) = decide (a ≠ s.toMembers.members) := by
  rw [Bool.eq_iff_iff, bne_iff_ne, decide_eq_true_eq, not_iff_not, ← toMembers_inj,
    Members.ext_iff, ha]
  exact and_iff_right hcap

theorem toMembers_eq {n : Nat} {a : Finset Nat} (hcap : s.capacity = n)
    (ha : s.toMembers.members = a) : s.toMembers = ⟨n, a⟩ := Members.ext hcap ha

/-- **Operations on a set are the operations on its members.** -/
theorem hom_toMembers : ops.Hom Members.ops toMembers where
  empty n := toMembers_eq rfl (members_eq fun i => by simp [ops])
  ofList n is := toMembers_eq (capacity_ofList n is) (members_eq fun i => by simp [ops])
  insert? s i := by
    show (if i < s.capacity then _ else _) = (s.insert? i).map _
    rw [insert?]
    split
    · next hi =>
      have habsent : (!s.contains i) =
          decide (Insert.insert i s.toMembers.members ≠ s.toMembers.members) := by
        rw [Bool.eq_iff_iff, decide_eq_true_eq, Ne, Finset.insert_eq_self, mem_toMembers,
          Bool.not_eq_true, Bool.not_eq_true']
      rw [Option.map_some, Prod.map_apply, id, habsent,
        toMembers_eq (capacity_insert s i) (members_insert hi)]
      rfl
    · rfl
  remove s i := by
    have hpresent : s.contains i =
        decide (s.toMembers.members.erase i ≠ s.toMembers.members) := by
      rw [Bool.eq_iff_iff, decide_eq_true_eq, Ne, Finset.erase_eq_self, mem_toMembers, not_not]
    show _ = (s.contains i, (s.erase i).toMembers)
    rw [hpresent, toMembers_eq (capacity_erase s i) (members_erase s i)]
    rfl
  clear s := toMembers_eq rfl (members_eq fun i => by simp [ops, clear])
  union? s t := by
    show (if s.capacity = t.capacity then _ else _) = (s.union? t).map _
    rw [union?]
    split
    · next h =>
      rw [Option.map_some, Prod.map_apply, id, bne_eq_decide (capacity_union s t) (members_union h),
        toMembers_eq rfl (members_union h)]
      rfl
    · rfl
  diff? s t := by
    show (if s.capacity = t.capacity then _ else _) = (s.diff? t).map _
    rw [diff?]
    split
    · rw [Option.map_some, Prod.map_apply, id, bne_eq_decide (capacity_diff s t) (members_diff s t),
        toMembers_eq rfl (members_diff s t)]
      rfl
    · rfl
  meet? s t := by
    show (if s.capacity = t.capacity then _ else _) = (s.meet? t).map _
    rw [meet?, union?]
    split
    · next h =>
      rw [Option.map_some, Option.map_some, toMembers_eq rfl (members_union h)]
      rfl
    · rfl

/-- **Operations on the words of a set are the operations on the set.** -/
theorem hom_toWords : ops.Hom WordSet.ops toWords where
  empty := empty_toWords
  ofList := ofList_toWords
  insert? := insert?_toWords
  remove := remove_toWords
  clear := clear_toWords
  union? := union?_toWords
  diff? := diff?_toWords
  meet? := meet?_toWords

end IndexSet

/-! ### Calls that fit -/

namespace SetCall

/-- The call names sets of a store with these capacities, inserts below the capacity and combines
sets of one capacity. -/
def Fits (caps : List Nat) : SetCall → Prop
  | .new _ | .ofList _ _ => True
  | .insert x i => ∃ n, caps[x]? = some n ∧ i < n
  | .remove x _ | .clear x => x < caps.length
  | .union x y | .diff x y | .meet x y => ∃ n, caps[x]? = some n ∧ caps[y]? = some n

/-- The capacities after a call. -/
def caps (caps : List Nat) : SetCall → List Nat
  | .new n | .ofList n _ => caps ++ [n]
  | .meet x _ => caps ++ caps[x]?.toList
  | _ => caps

/-- Every call of a history fits. -/
def InRange : List Nat → List SetCall → Prop
  | _, [] => True
  | caps, c :: calls => c.Fits caps ∧ InRange (c.caps caps) calls

end SetCall

namespace IndexSet

/-- A set that keeps its capacity leaves the capacities of the store alone. -/
theorem map_capacity_set {store : List IndexSet} {x : Nat} {s r : IndexSet}
    (hx : store[x]? = some s) (hcap : r.capacity = s.capacity) :
    (store.set x r).map capacity = store.map capacity := by
  refine List.ext_getElem? fun y => ?_
  rw [List.getElem?_map, List.getElem?_map, List.getElem?_set]
  split
  · next hxy =>
    subst hxy
    rw [if_pos (List.getElem?_eq_some_iff.1 hx).1, hx, Option.map_some, Option.map_some, hcap]
  · rfl

theorem exists_set {store : List IndexSet} {x : Nat} (h : x < (store.map capacity).length) :
    ∃ s, store[x]? = some s := by
  rw [List.length_map] at h
  exact ⟨_, List.getElem?_eq_getElem h⟩

theorem exists_pair {store : List IndexSet} {x y : Nat}
    (h : ∃ n, (store.map capacity)[x]? = some n ∧ (store.map capacity)[y]? = some n) :
    ∃ s t, store[x]? = some s ∧ store[y]? = some t ∧ s.capacity = t.capacity := by
  obtain ⟨n, hx, hy⟩ := h
  rw [List.getElem?_map, Option.map_eq_some_iff] at hx hy
  obtain ⟨s, hx, hs⟩ := hx
  obtain ⟨t, hy, ht⟩ := hy
  exact ⟨s, t, hx, hy, hs.trans ht.symm⟩

theorem exists_run {store : List IndexSet} {c : SetCall} (h : c.Fits (store.map capacity)) :
    ∃ a store', c.run ops store = some (a, store') ∧
      store'.map capacity = c.caps (store.map capacity) := by
  cases c with
  | new n => exact ⟨_, _, rfl, List.map_append⟩
  | ofList n is =>
    refine ⟨_, _, rfl, ?_⟩
    rw [List.map_append, List.map_singleton]
    exact congrArg (fun m => store.map capacity ++ [m]) (capacity_ofList n is)
  | insert x i =>
    obtain ⟨n, hx, hi⟩ := h
    rw [List.getElem?_map, Option.map_eq_some_iff] at hx
    obtain ⟨s, hx, rfl⟩ := hx
    refine ⟨some (!s.contains i), store.set x (s.insert i), ?_,
      map_capacity_set hx (capacity_insert s i)⟩
    simp [SetCall.run, hx, ops, insert?, hi]
  | remove x i =>
    obtain ⟨s, hx⟩ := exists_set h
    refine ⟨some (s.contains i), store.set x (s.erase i), ?_,
      map_capacity_set hx (capacity_erase s i)⟩
    simp [SetCall.run, hx, ops, remove]
  | clear x =>
    obtain ⟨s, hx⟩ := exists_set h
    refine ⟨none, store.set x s.clear, ?_, map_capacity_set hx rfl⟩
    simp [SetCall.run, hx, ops]
  | union x y =>
    obtain ⟨s, t, hx, hy, hcap⟩ := exists_pair h
    refine ⟨some (s.union t != s), store.set x (s.union t), ?_, map_capacity_set hx rfl⟩
    simp [SetCall.run, hx, hy, ops, union?, hcap]
  | diff x y =>
    obtain ⟨s, t, hx, hy, hcap⟩ := exists_pair h
    refine ⟨some (s.diff t != s), store.set x (s.diff t), ?_, map_capacity_set hx rfl⟩
    simp [SetCall.run, hx, hy, ops, diff?, hcap]
  | meet x y =>
    obtain ⟨s, t, hx, hy, hcap⟩ := exists_pair h
    refine ⟨none, store ++ [s.union t], ?_, ?_⟩
    · simp [SetCall.run, hx, hy, ops, meet?, union?, hcap]
    · simp [SetCall.caps, hx]

/-- A history of calls that fit succeeds. -/
theorem exists_runs (store : List IndexSet) {calls : List SetCall}
    (h : SetCall.InRange (store.map capacity) calls) :
    ∃ answers store', ops.runs calls store = some (answers, store') := by
  induction calls generalizing store with
  | nil => exact ⟨_, _, rfl⟩
  | cons c calls ih =>
    obtain ⟨a, store', hrun, hcaps⟩ := exists_run h.1
    obtain ⟨answers, store'', hruns⟩ := ih store' (hcaps.symm ▸ h.2)
    refine ⟨a :: answers, store'', ?_⟩
    rw [SetOps.runs, hrun, Option.bind_some, hruns, Option.map_some]

end IndexSet

/-! ### What is asked of a set -/

/-- A finite set, the set that stands for it and the same in words: what the last two answer is
true of the first. -/
structure Members.Depicted (a : Members) (s : IndexSet) (w : WordSet) : Prop where
  /-- They have one capacity. -/
  capacity : s.capacity = a.capacity ∧ w.capacity = a.capacity
  /-- All members lie below it. -/
  below : ∀ i ∈ a.members, i < a.capacity
  /-- Being contained is being a member. -/
  contains : ∀ i, (s.contains i = true ↔ i ∈ a.members) ∧ (w.contains i = true ↔ i ∈ a.members)
  /-- No bit at or beyond the capacity is set. -/
  bits : ∀ (k : Nat) (word : BitVec 64) (j : Nat), w.words[k]? = some word →
    word.getLsbD j = true → 64 * k + j < a.capacity
  /-- The members are listed once each in ascending order, and listing the words ends with
  the same list. -/
  listed : s.toList.Pairwise (· < ·) ∧ (∀ i, i ∈ s.toList ↔ i ∈ a.members) ∧
    ∃ c ∈ StateTransition.eval w.scanStep w.scanStart, c.found = s.toList
  /-- The size is the number of members. -/
  count : s.size = a.members.card ∧ w.count = a.members.card
  /-- To be empty is to have no members. -/
  isEmpty : (s.isEmpty = true ↔ a.members = ∅) ∧ (w.isEmpty = true ↔ a.members = ∅)

namespace IndexSet

theorem depicted (s : IndexSet) : s.toMembers.Depicted s s.toWords := by
  have hempty : s.isEmpty = true ↔ s.toMembers.members = ∅ := by
    rw [isEmpty_iff, Finset.eq_empty_iff_forall_notMem]
    simp only [mem_toMembers, Bool.not_eq_true]
  have hcard : s.size = s.toMembers.members.card :=
    (List.toFinset_card_of_nodup ((pairwise_toList s).imp Nat.ne_of_lt)).symm
  refine ⟨⟨rfl, rfl⟩, fun i hi => lt_capacity (mem_toMembers.1 hi), fun i => ?_,
    fun k word j hk hj => lt_capacity (contains_of_getLsbD hk hj),
    ⟨pairwise_toList s, fun i => mem_toList.trans mem_toMembers.symm, scan_toWords s⟩,
    ⟨hcard, (count_toWords s).trans hcard⟩, hempty, ?_⟩
  · rw [contains_toWords]
    exact ⟨mem_toMembers.symm, mem_toMembers.symm⟩
  · rw [isEmpty_toWords]
    exact hempty

/-- **Sets of indices are finite sets.**  Whatever is done with some sets, as long as it fits: the
same calls on finite sets succeed too and have the same answers, where a set changed exactly if the
finite set did, and so do the same calls on sets in words.  In the end the sets of the three stores
answer every question alike, and they are equal exactly if capacities and members are. -/
theorem calls_depict (calls : List SetCall) (hfit : SetCall.InRange [] calls) :
    ∃ answers sets store words,
      Members.ops.runs calls [] = some (answers, sets) ∧
      ops.runs calls [] = some (answers, store) ∧
      WordSet.ops.runs calls [] = some (answers, words) ∧
      sets.length = store.length ∧ words.length = store.length ∧
      (∀ (x : Nat) a s w, sets[x]? = some a → store[x]? = some s → words[x]? = some w →
        a.Depicted s w) ∧
      ∀ (x y : Nat) a b s t v w, sets[x]? = some a → sets[y]? = some b → store[x]? = some s →
        store[y]? = some t → words[x]? = some v → words[y]? = some w →
        (s = t ↔ a.capacity = b.capacity ∧ a.members = b.members) ∧
        (v = w ↔ a.capacity = b.capacity ∧ a.members = b.members) := by
  obtain ⟨answers, store, hruns⟩ := exists_runs [] hfit
  have hsets := hom_toMembers.runs calls []
  have hwords := hom_toWords.runs calls []
  rw [hruns] at hsets hwords
  refine ⟨answers, store.map toMembers, store, store.map toWords, hsets, hruns, hwords,
    List.length_map _, List.length_map _, fun x a s w ha hs hw => ?_,
    fun x y a b s t v w ha hb hs ht hv hw => ?_⟩
  · rw [List.getElem?_map, hs] at ha hw
    cases ha
    cases hw
    exact s.depicted
  · rw [List.getElem?_map, hs] at ha hv
    rw [List.getElem?_map, ht] at hb hw
    cases ha
    cases hb
    cases hv
    cases hw
    rw [toWords_inj, ← Members.ext_iff, toMembers_inj]
    exact ⟨Iff.rfl, Iff.rfl⟩

/-- Two sets of three words, of which the last has two bits; one reaches over both borders. -/
def spill : List SetCall :=
  [.new 130, .insert 0 129, .insert 0 64, .ofList 130 [63, 64, 500], .union 0 1, .union 0 1,
    .remove 0 64, .remove 0 400, .meet 1 0, .diff 2 1, .clear 1]

theorem calls_depict_spill :
    SetCall.InRange [] spill ∧ ∃ store words s w,
      ops.runs spill [] = some
        ([none, some true, some true, none, some true, some false, some true, some false, none,
          some true, none], store) ∧
      (WordSet.ops.runs spill []).map (·.2) = some words ∧
      store[2]? = some s ∧ words[2]? = some w ∧
      Members.Depicted ⟨130, {129}⟩ s w := by
  have hfit : SetCall.InRange [] spill := by
    simp [SetCall.InRange, SetCall.Fits, SetCall.caps, spill]
  have hsets : Members.ops.runs spill [] = some
      ([none, some true, some true, none, some true, some false, some true, some false, none,
        some true, none], [⟨130, {63, 129}⟩, ⟨130, ∅⟩, ⟨130, {129}⟩]) := by decide +kernel
  obtain ⟨answers, sets, store, words, hruns, hstore, hwords, hlength, hlength', hdepicted, -⟩ :=
    calls_depict spill hfit
  obtain ⟨rfl, rfl⟩ := Prod.mk.inj (Option.some.inj (hruns.symm.trans hsets))
  have hlt : 2 < store.length := hlength ▸ (by decide)
  have hs := List.getElem?_eq_getElem hlt
  have hw := List.getElem?_eq_getElem (hlength'.symm ▸ hlt)
  exact ⟨hfit, store, words, _, _, hstore, by rw [hwords]; rfl, hs, hw,
    hdepicted 2 _ _ _ rfl hs hw⟩

end IndexSet

end ChordalAlloc
