/-
ChordalAlloc/IndexSet.lean

Sets of indices below a fixed capacity, one bit per index.  The bits form a
bit vector whose width is the capacity, so no bit at or beyond the capacity
exists and two sets are equal exactly when their capacities and their
members agree (`ext_contains`).

The view of a set is `contains`; every operation has one lemma that says
what it does to that view.  Operations come in two forms:

* the plain form is total and stays inside the capacity (an index beyond it
  is ignored), which is what the analyses use;
* the form ending in `?` answers `none` when the request does not fit the
  set, and otherwise also says whether the set changed.
-/

namespace ChordalAlloc

/-- A set of indices below `capacity`. -/
structure IndexSet where
  /-- Every member lies below this bound. -/
  capacity : Nat
  /-- Bit `i` is set exactly when `i` is a member. -/
  bits : BitVec capacity
deriving DecidableEq

namespace IndexSet

/-! ### Membership and the total operations -/

/-- The set without members. -/
def empty (capacity : Nat) : IndexSet := ⟨capacity, 0⟩

instance : Inhabited IndexSet := ⟨empty 0⟩

/-- Membership; always `false` at or beyond the capacity. -/
def contains (s : IndexSet) (i : Nat) : Bool := s.bits.getLsbD i

/-- Add an index; one beyond the capacity is ignored. -/
def insert (s : IndexSet) (i : Nat) : IndexSet :=
  if i < s.capacity then { s with bits := s.bits ||| BitVec.twoPow s.capacity i } else s

/-- Take an index out. -/
def erase (s : IndexSet) (i : Nat) : IndexSet :=
  if i < s.capacity then { s with bits := s.bits &&& ~~~ BitVec.twoPow s.capacity i } else s

/-- The members of a list that lie below the capacity. -/
def ofList (capacity : Nat) (is : List Nat) : IndexSet :=
  is.foldl insert (empty capacity)

/-- Join with another set, keeping the capacity of the first. -/
def union (s t : IndexSet) : IndexSet :=
  { s with bits := s.bits ||| t.bits.setWidth s.capacity }

/-- Take the members of another set out. -/
def diff (s t : IndexSet) : IndexSet :=
  { s with bits := s.bits &&& ~~~ t.bits.setWidth s.capacity }

/-- The positions of the bits of `x` below `1 <<< k`, each moved up by `base`, in ascending order
and followed by `rest`.  A stretch without bits is passed over at once. -/
def bitsBelow : Nat → Nat → Nat → List Nat → List Nat
  | 0, x, base, rest => if x.testBit 0 then base :: rest else rest
  | k + 1, x, base, rest =>
    if x = 0 then rest
    else
      let half := 1 <<< k
      let high := x >>> half
      let low := x ^^^ (high <<< half)
      bitsBelow k low base (bitsBelow k high (base + half) rest)

/-- The members in ascending order. -/
def toList (s : IndexSet) : List Nat := bitsBelow (s.capacity.log2 + 1) s.bits.toNat 0 []

/-- The number of members. -/
def size (s : IndexSet) : Nat := s.toList.length

/-- Whether there is no member. -/
def isEmpty (s : IndexSet) : Bool := s.bits == 0

/-- Drop all members and keep the capacity. -/
def clear (s : IndexSet) : IndexSet := empty s.capacity

/-- The members between braces, as in `{0, 63}`. -/
def text (s : IndexSet) : String :=
  "\x7b" ++ ", ".intercalate (s.toList.map toString) ++ "\x7d"

/-! ### Requests that may not fit -/

/-- Add an index below the capacity, and say whether it was absent. -/
def insert? (s : IndexSet) (i : Nat) : Option (Bool × IndexSet) :=
  if i < s.capacity then some (!s.contains i, s.insert i) else none

/-- Take an index out, and say whether it was present. -/
def remove (s : IndexSet) (i : Nat) : Bool × IndexSet := (s.contains i, s.erase i)

/-- Join with a set of the same capacity, and say whether that added a member. -/
def union? (s t : IndexSet) : Option (Bool × IndexSet) :=
  if s.capacity = t.capacity then some (s.union t != s, s.union t) else none

/-- Take out the members of a set of the same capacity, and say whether one was present. -/
def diff? (s t : IndexSet) : Option (Bool × IndexSet) :=
  if s.capacity = t.capacity then some (s.diff t != s, s.diff t) else none

/-- The meet of two facts that hold on some path: the union of sets of one capacity. -/
def meet? (s t : IndexSet) : Option IndexSet := (s.union? t).map (·.2)

/-! ### What the operations do to membership -/

@[simp] theorem capacity_empty (n : Nat) : (empty n).capacity = n := rfl
@[simp] theorem capacity_union (s t : IndexSet) : (s.union t).capacity = s.capacity := rfl
@[simp] theorem capacity_diff (s t : IndexSet) : (s.diff t).capacity = s.capacity := rfl

@[simp] theorem capacity_insert (s : IndexSet) (i : Nat) :
    (s.insert i).capacity = s.capacity := by
  unfold insert; split <;> rfl

@[simp] theorem capacity_erase (s : IndexSet) (i : Nat) :
    (s.erase i).capacity = s.capacity := by
  unfold erase; split <;> rfl

theorem lt_capacity {s : IndexSet} {i : Nat} (h : s.contains i = true) : i < s.capacity :=
  BitVec.lt_of_getLsbD h

@[simp] theorem contains_empty (n i : Nat) : (empty n).contains i = false := by
  simp [empty, contains]

@[simp] theorem contains_insert (s : IndexSet) (i j : Nat) :
    (s.insert i).contains j = (s.contains j || decide (i = j ∧ j < s.capacity)) := by
  unfold insert
  split
  · simp only [contains, BitVec.getLsbD_or, BitVec.getLsbD_twoPow]
    grind
  · grind

@[simp] theorem contains_erase (s : IndexSet) (i j : Nat) :
    (s.erase i).contains j = (s.contains j && !decide (i = j)) := by
  have := @lt_capacity s j
  unfold erase
  split
  · simp only [contains, BitVec.getLsbD_and, BitVec.getLsbD_not, BitVec.getLsbD_twoPow] at *
    grind
  · grind

@[simp] theorem contains_union (s t : IndexSet) (i : Nat) :
    (s.union t).contains i = (s.contains i || (t.contains i && decide (i < s.capacity))) := by
  simp only [union, contains, BitVec.getLsbD_or, BitVec.getLsbD_setWidth]
  grind

@[simp] theorem contains_diff (s t : IndexSet) (i : Nat) :
    (s.diff t).contains i = (s.contains i && !t.contains i) := by
  have := @lt_capacity s i
  simp only [diff, contains, BitVec.getLsbD_and, BitVec.getLsbD_not, BitVec.getLsbD_setWidth] at *
  grind

theorem capacity_foldl_insert (is : List Nat) (s : IndexSet) :
    (is.foldl insert s).capacity = s.capacity := by
  induction is generalizing s with
  | nil => rfl
  | cons k is ih => rw [List.foldl_cons, ih, capacity_insert]

theorem contains_foldl_insert (is : List Nat) (s : IndexSet) (i : Nat) :
    (is.foldl insert s).contains i
      = (s.contains i || (decide (i ∈ is) && decide (i < s.capacity))) := by
  induction is generalizing s with
  | nil => simp
  | cons k is ih =>
    rw [List.foldl_cons, ih, contains_insert, capacity_insert]
    grind

@[simp] theorem capacity_ofList (n : Nat) (is : List Nat) : (ofList n is).capacity = n :=
  capacity_foldl_insert is (empty n)

@[simp] theorem contains_ofList (n : Nat) (is : List Nat) (i : Nat) :
    (ofList n is).contains i = (decide (i ∈ is) && decide (i < n)) := by
  rw [ofList, contains_foldl_insert, contains_empty, Bool.false_or]
  rfl

/-- A set is empty exactly when nothing is a member. -/
theorem isEmpty_iff {s : IndexSet} : s.isEmpty = true ↔ ∀ i, s.contains i = false := by
  simp only [isEmpty, beq_iff_eq]
  constructor
  · intro h i
    simp [contains, h]
  · intro h
    refine BitVec.eq_of_getLsbD_eq fun i _ => ?_
    simpa [contains] using h i

theorem bitsBelow_eq (k x base : Nat) (rest : List Nat) :
    bitsBelow k x base rest = ((List.range (1 <<< k)).filter x.testBit).map (base + ·) ++ rest := by
  induction k generalizing x base rest with
  | zero => cases h : x.testBit 0 <;> simp [bitsBelow, h, List.range_succ]
  | succ k ih =>
    rw [bitsBelow]
    split
    · next h => subst h; simp
    · -- the upper half of the range is the lower half moved up, and so are its bits
      have low : (List.range (1 <<< k)).filter (x ^^^ ((x >>> (1 <<< k)) <<< (1 <<< k))).testBit
          = (List.range (1 <<< k)).filter x.testBit :=
        List.filter_congr fun i hi => by
          simp [Nat.testBit_xor, Nat.testBit_shiftLeft, Nat.not_le.2 (List.mem_range.1 hi)]
      have high : ((List.range (1 <<< k)).map (1 <<< k + ·)).filter x.testBit
          = ((List.range (1 <<< k)).filter (x >>> (1 <<< k)).testBit).map (1 <<< k + ·) := by
        rw [List.filter_map]
        exact congrArg _ (List.filter_congr fun i _ => (Nat.testBit_shiftRight x).symm)
      rw [ih, ih, low, Nat.shiftLeft_succ, Nat.two_mul, List.range_add, List.filter_append, high]
      simp [Function.comp_def, Nat.add_assoc]

/-- The list of members is the list of the indices below the capacity that are members. -/
theorem toList_eq_filter (s : IndexSet) :
    s.toList = (List.range s.capacity).filter s.contains := by
  obtain ⟨r, hr⟩ := Nat.exists_eq_add_of_le (Nat.le_of_lt (Nat.lt_log2_self (n := s.capacity)))
  have none_beyond : ((List.range r).map (s.capacity + ·)).filter s.bits.toNat.testBit = [] := by
    simp only [List.filter_eq_nil_iff, List.forall_mem_map]
    exact fun i _ h => Nat.not_lt.2 (Nat.le_add_right s.capacity i) (lt_capacity h)
  rw [toList, bitsBelow_eq, Nat.one_shiftLeft, hr, List.range_add, List.filter_append, none_beyond]
  simp only [Nat.zero_add, List.map_id_fun', id_eq, List.append_nil]
  rfl

@[simp] theorem mem_toList {s : IndexSet} {i : Nat} : i ∈ s.toList ↔ s.contains i = true := by
  simp only [toList_eq_filter, List.mem_filter, List.mem_range, and_iff_right_iff_imp]
  exact lt_capacity

/-- The members are listed in ascending order, each once. -/
theorem pairwise_toList (s : IndexSet) : s.toList.Pairwise (· < ·) := by
  rw [toList_eq_filter]
  exact List.pairwise_lt_range.filter _

/-- Sets with the same capacity and the same members are equal. -/
theorem ext_contains {s t : IndexSet} (hc : s.capacity = t.capacity)
    (h : ∀ i, s.contains i = t.contains i) : s = t := by
  obtain ⟨n, x⟩ := s
  obtain ⟨m, y⟩ := t
  simp only at hc
  subst hc
  have : x = y := BitVec.eq_of_getLsbD_eq fun i _ => h i
  rw [this]

/-! ### Counting -/

/-- The size counts the indices below the capacity that are members. -/
theorem size_eq_countP (s : IndexSet) :
    s.size = (List.range s.capacity).countP s.contains := by
  rw [size, toList_eq_filter, List.countP_eq_length_filter]

theorem size_le_capacity (s : IndexSet) : s.size ≤ s.capacity := by
  simpa [size_eq_countP] using List.countP_le_length (p := s.contains) (l := List.range s.capacity)

/-- A new member adds one to the size. -/
theorem size_insert {s : IndexSet} {i : Nat} (hi : i < s.capacity) (h : s.contains i = false) :
    (s.insert i).size = s.size + 1 := by
  have key : ∀ n, (List.range n).countP (s.insert i).contains
      = (List.range n).countP s.contains + if i < n then 1 else 0 := by
    intro n
    induction n with
    | zero => simp
    | succ n ih =>
      rw [List.range_succ, List.countP_append, List.countP_append, ih]
      simp only [List.countP_cons, List.countP_nil, contains_insert]
      by_cases hin : i = n
      · subst hin; simp [h, hi]
      · grind
  simpa [size_eq_countP, hi] using key s.capacity

end IndexSet

end ChordalAlloc
