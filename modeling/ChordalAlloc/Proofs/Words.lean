/-
ChordalAlloc/Proofs/Words.lean

Sets of indices kept in words of 64 bits.

Bit `i % 64` of word `i / 64` stands for the index `i`, and the last word may
have bits to spare.  Operations work a word at a time: they count, compare and
report changes by looking at whole words, which is right only as long as the
bits to spare are never set.  A listing takes the lowest bit out of a word
until none is left, and then goes on to the next word.

`IndexSet.toWords` writes a set down in words.  Every operation on the words of
a set gives the words of the result (`insert?_toWords` and so on), so the sets
that come about in words are those written down from a set: they have no bit to
spare set (`contains_of_getLsbD`), equal words mean equal sets
(`toWords_inj`), and listing and counting words lists and counts the members
(`scan_toWords`, `count_toWords`).
-/
import Mathlib.Data.List.Basic
import ChordalAlloc.IndexSet
import ChordalAlloc.Proofs.Checks

namespace ChordalAlloc

/-- How many words hold `n` bits. -/
def wordCount (n : Nat) : Nat := (n + 63) / 64

/-- A set of indices below `capacity`, in words. -/
@[ext]
structure WordSet where
  /-- Every member lies below this bound. -/
  capacity : Nat
  /-- Bit `i % 64` of word `i / 64` is set exactly when `i` is a member. -/
  words : List (BitVec 64)
  /-- There are just enough words. -/
  length_words : words.length = wordCount capacity
deriving DecidableEq

namespace WordSet

/-! ### The operations, a word at a time -/

/-- The word in which only the bit of an index is set. -/
def mask (i : Nat) : BitVec 64 := 1#64 <<< (i % 64)

/-- The word with the bit of an index; there is one for every index below the capacity. -/
def wordAt (s : WordSet) (i : Nat) : BitVec 64 := s.words.getD (i / 64) 0

/-- Change the word with the bit of an index. -/
def update (s : WordSet) (i : Nat) (f : BitVec 64 → BitVec 64) : WordSet where
  capacity := s.capacity
  words := s.words.modify (i / 64) f
  length_words := (List.length_modify f s.words (i / 64)).trans s.length_words

/-- The set without members. -/
def empty (n : Nat) : WordSet := ⟨n, List.replicate (wordCount n) 0, List.length_replicate⟩

/-- Membership; always `false` at or beyond the capacity. -/
def contains (s : WordSet) (i : Nat) : Bool :=
  if i < s.capacity then s.wordAt i &&& mask i != 0 else false

/-- Add an index below the capacity, and say whether it was absent. -/
def insert? (s : WordSet) (i : Nat) : Option (Bool × WordSet) :=
  if i < s.capacity then some (s.wordAt i &&& mask i == 0, s.update i (· ||| mask i)) else none

/-- Take an index out, and say whether it was present. -/
def remove (s : WordSet) (i : Nat) : Bool × WordSet :=
  if i < s.capacity then (s.wordAt i &&& mask i != 0, s.update i (· &&& ~~~ mask i))
  else (false, s)

/-- The members of a list that lie below the capacity. -/
def ofList (n : Nat) (is : List Nat) : WordSet :=
  is.foldl (fun s i => if i < n then s.update i (· ||| mask i) else s) (empty n)

/-- Drop all members. -/
def clear (s : WordSet) : WordSet where
  capacity := s.capacity
  words := s.words.map fun _ => 0
  length_words := (List.length_map _).trans s.length_words

/-- Combine with a set of the same capacity, word by word, and say whether a word changed. -/
def combine? (op : BitVec 64 → BitVec 64 → BitVec 64) (s t : WordSet) : Option (Bool × WordSet) :=
  if h : s.capacity = t.capacity then
    some ((s.words.zip t.words).any fun x => op x.1 x.2 != x.1,
      { capacity := s.capacity
        words := s.words.zipWith op t.words
        length_words := by
          rw [List.length_zipWith, s.length_words, t.length_words, h, Nat.min_self] })
  else none

/-- Join with a set of the same capacity, and say whether that added a member. -/
def union? (s t : WordSet) : Option (Bool × WordSet) := combine? (· ||| ·) s t

/-- Take out the members of a set of the same capacity, and say whether one was present. -/
def diff? (s t : WordSet) : Option (Bool × WordSet) := combine? (fun a b => a &&& ~~~ b) s t

/-- The union of sets of one capacity. -/
def meet? (s t : WordSet) : Option WordSet := (s.union? t).map (·.2)

/-- Whether there is no member. -/
def isEmpty (s : WordSet) : Bool := s.words.all (· == 0)

/-- The number of members. -/
def count (s : WordSet) : Nat := s.words.foldr (fun w total => w.cpop.toNat + total) 0

/-- A listing in progress. -/
structure Scan where
  /-- The word that is being listed. -/
  index : Nat
  /-- Its bits that are not listed yet. -/
  current : BitVec 64
  /-- The members listed so far. -/
  found : List Nat

/-- Start with the first word. -/
def scanStart (s : WordSet) : Scan := ⟨0, s.words.head?.getD 0, []⟩

/-- List the lowest bit of the word and clear it; from an empty word go on to the next one. -/
def scanStep (s : WordSet) (c : Scan) : Option Scan :=
  if c.current ≠ 0 then
    some { c with
      current := c.current &&& (c.current - 1)
      found := c.found ++ [64 * c.index + c.current.ctz.toNat] }
  else (s.words[c.index + 1]?).map fun w => { c with index := c.index + 1, current := w }

end WordSet

/-! ### Bits of one word -/

section Word

variable {w : BitVec 64} {i j : Nat}

theorem getLsbD_mask (i j : Nat) : (WordSet.mask i).getLsbD j = decide (j = i % 64) := by
  have hlt : i % 64 < 64 := Nat.mod_lt i (by decide)
  rw [WordSet.mask, BitVec.getLsbD_shiftLeft, BitVec.getLsbD_one]
  by_cases hj : j = i % 64
  · subst hj
    simp [hlt]
  · simp [hj]
    omega

theorem and_mask_ne_zero (w : BitVec 64) (i : Nat) :
    (w &&& WordSet.mask i != 0) = w.getLsbD (i % 64) := by
  rw [Bool.eq_iff_iff, bne_iff_ne]
  constructor
  · intro hne
    by_contra hbit
    rw [Bool.not_eq_true] at hbit
    refine hne (BitVec.eq_of_getLsbD_eq fun j _ => ?_)
    rw [BitVec.getLsbD_and, getLsbD_mask]
    by_cases hj : j = i % 64
    · subst hj
      simp [hbit]
    · simp [hj]
  · intro hbit heq
    have hzero := congrArg (·.getLsbD (i % 64)) heq
    simp [BitVec.getLsbD_and, getLsbD_mask, hbit] at hzero

/-- A number is its lowest bit and a multiple of twice that. -/
theorem mod_two_pow_ctz (hw : w ≠ 0) :
    w.toNat % 2 ^ (w.ctz.toNat + 1) = 2 ^ w.ctz.toNat := by
  refine Nat.eq_of_testBit_eq fun i => ?_
  rw [Nat.testBit_mod_two_pow, Nat.testBit_two_pow]
  rcases Nat.lt_trichotomy i w.ctz.toNat with hlt | rfl | hgt
  · have hbit : w.toNat.testBit i = false := BitVec.getLsbD_false_of_lt_ctz hlt
    simp [hbit, Nat.ne_of_gt hlt]
  · have hbit : w.toNat.testBit w.ctz.toNat = true := BitVec.getLsbD_true_ctz_of_ne_zero hw
    simp [hbit]
  · simp [Nat.not_lt.2 (Nat.succ_le_of_lt hgt), Nat.ne_of_lt hgt]

/-- Taking one away clears the lowest bit, sets all below it and leaves those above alone. -/
theorem getLsbD_and_sub_one (hw : w ≠ 0) (i : Nat) :
    (w &&& (w - 1)).getLsbD i = (w.getLsbD i && decide (i ≠ w.ctz.toNat)) := by
  have hpow : 0 < 2 ^ w.ctz.toNat := Nat.two_pow_pos _
  have hlt : 2 ^ w.ctz.toNat < 2 ^ (w.ctz.toNat + 1) := Nat.pow_lt_pow_succ (by decide)
  have hsplit : w.toNat = 2 ^ (w.ctz.toNat + 1) * (w.toNat / 2 ^ (w.ctz.toNat + 1))
      + 2 ^ w.ctz.toNat := by
    have := Nat.div_add_mod w.toNat (2 ^ (w.ctz.toNat + 1))
    rwa [mod_two_pow_ctz hw, eq_comm] at this
  have hsub : (w - 1).toNat = 2 ^ (w.ctz.toNat + 1) * (w.toNat / 2 ^ (w.ctz.toNat + 1))
      + (2 ^ w.ctz.toNat - 1) := by
    have hone : (1 : BitVec 64) ≤ w := by
      rw [BitVec.le_def]
      change 1 ≤ w.toNat
      omega
    rw [BitVec.toNat_sub_of_le hone]
    change w.toNat - 1 = _
    omega
  rw [BitVec.getLsbD_and, BitVec.getLsbD, BitVec.getLsbD, hsub]
  by_cases hi : i < w.ctz.toNat + 1
  · rw [Nat.testBit_two_pow_mul_add _ (by omega), if_pos hi, Nat.testBit_two_pow_sub_one]
    rcases Nat.lt_or_eq_of_le (Nat.le_of_lt_succ hi) with hlow | rfl
    · have hbit : w.toNat.testBit i = false := BitVec.getLsbD_false_of_lt_ctz hlow
      simp [hbit]
    · simp
  · rw [Nat.testBit_two_pow_mul_add _ (by omega), if_neg hi]
    have hbit : w.toNat.testBit i =
        (w.toNat / 2 ^ (w.ctz.toNat + 1)).testBit (i - (w.ctz.toNat + 1)) := by
      conv_lhs => rw [hsplit]
      rw [Nat.testBit_two_pow_mul_add _ hlt, if_neg hi]
    have hne : i ≠ w.ctz.toNat := by omega
    simp [hbit, hne]

end Word

/-! ### A set in words -/

theorem lt_wordCount {n i : Nat} (h : i < n) : i / 64 < wordCount n := by
  unfold wordCount
  omega

namespace IndexSet

/-- The set, written down in words. -/
def toWords (s : IndexSet) : WordSet where
  capacity := s.capacity
  words := (List.range (wordCount s.capacity)).map fun k => s.bits.extractLsb' (64 * k) 64
  length_words := (List.length_map _).trans List.length_range

variable {s t r : IndexSet} {i k : Nat}

@[simp] theorem capacity_toWords (s : IndexSet) : s.toWords.capacity = s.capacity := rfl

theorem getElem?_toWords (hk : k < wordCount s.capacity) :
    s.toWords.words[k]? = some (s.bits.extractLsb' (64 * k) 64) := by
  rw [toWords, List.getElem?_map, List.getElem?_range hk, Option.map_some]

theorem getLsbD_word (s : IndexSet) (k : Nat) {j : Nat} (hj : j < 64) :
    (s.bits.extractLsb' (64 * k) 64).getLsbD j = s.contains (64 * k + j) := by
  rw [BitVec.getLsbD_extractLsb', decide_eq_true hj, Bool.true_and]
  rfl

theorem wordAt_toWords (hi : i < s.capacity) :
    s.toWords.wordAt i = s.bits.extractLsb' (64 * (i / 64)) 64 := by
  rw [WordSet.wordAt, List.getD_eq_getElem?_getD, getElem?_toWords (lt_wordCount hi),
    Option.getD_some]

/-- Words with the right bits are the words of a set. -/
theorem eq_toWords {w : WordSet} (hcap : w.capacity = s.capacity)
    (h : ∀ k word, w.words[k]? = some word → ∀ j, j < 64 →
      word.getLsbD j = s.contains (64 * k + j)) : w = s.toWords := by
  obtain ⟨n, words, hlength⟩ := w
  obtain rfl : n = s.capacity := hcap
  have hwords : words = s.toWords.words := by
    refine List.ext_getElem? fun k => ?_
    rcases Nat.lt_or_ge k (wordCount s.capacity) with hlt | hge
    · rw [getElem?_toWords hlt, List.getElem?_eq_getElem (hlength.symm ▸ hlt), Option.some.injEq]
      refine BitVec.eq_of_getLsbD_eq fun j hj => ?_
      rw [getLsbD_word s k hj]
      exact h k _ (List.getElem?_eq_getElem (hlength.symm ▸ hlt)) j hj
    · rw [List.getElem?_eq_none (hlength.symm ▸ hge),
        List.getElem?_eq_none (s.toWords.length_words.symm ▸ hge)]
  subst hwords
  rfl

/-- The word of a set at a position, if there is one, holds the bits from there on. -/
theorem of_getElem?_toWords {word : BitVec 64} (h : s.toWords.words[k]? = some word) :
    k < wordCount s.capacity ∧ word = s.bits.extractLsb' (64 * k) 64 := by
  have hk : k < wordCount s.capacity := s.toWords.length_words ▸ (List.getElem?_eq_some_iff.1 h).1
  rw [getElem?_toWords hk] at h
  exact ⟨hk, (Option.some.inj h).symm⟩

/-- A bit that is set stands for a member. -/
theorem contains_of_getLsbD {word : BitVec 64} {j : Nat} (h : s.toWords.words[k]? = some word)
    (hj : word.getLsbD j = true) : s.contains (64 * k + j) = true := by
  obtain ⟨-, rfl⟩ := of_getElem?_toWords h
  rwa [getLsbD_word s k (BitVec.lt_of_getLsbD hj)] at hj

theorem and_mask_toWords (hi : i < s.capacity) :
    (s.toWords.wordAt i &&& WordSet.mask i != 0) = s.contains i := by
  rw [and_mask_ne_zero, wordAt_toWords hi, getLsbD_word s _ (Nat.mod_lt i (by decide)),
    Nat.div_add_mod]

@[simp] theorem contains_toWords (s : IndexSet) (i : Nat) :
    s.toWords.contains i = s.contains i := by
  rw [WordSet.contains]
  split
  · next hi => exact and_mask_toWords hi
  · next hi =>
    by_contra hne
    exact hi (lt_capacity (Bool.eq_true_of_not_eq_false (Ne.symm hne)))

/-- Equal words mean equal sets. -/
theorem toWords_inj : s.toWords = t.toWords ↔ s = t := by
  refine ⟨fun h => ext_contains (congrArg WordSet.capacity h) fun i => ?_, congrArg toWords⟩
  rw [← contains_toWords, h, contains_toWords]

/-! ### Operations on the words of a set -/

theorem empty_toWords (n : Nat) : (empty n).toWords = WordSet.empty n := by
  refine (eq_toWords rfl fun k word hword j _ => ?_).symm
  obtain rfl := List.eq_of_mem_replicate (List.mem_of_getElem? hword)
  simp

/-- Setting one bit to `b` in its word sets the membership of that index. -/
theorem update_toWords {f : BitVec 64 → BitVec 64} {b : Bool} (hcap : r.capacity = s.capacity)
    (hf : ∀ w j, j < 64 → (f w).getLsbD j = if j = i % 64 then b else w.getLsbD j)
    (hr : ∀ m, r.contains m = if m = i then b else s.contains m) :
    s.toWords.update i f = r.toWords := by
  refine eq_toWords hcap.symm fun k word hword j hj => ?_
  rw [WordSet.update, List.getElem?_modify] at hword
  obtain ⟨old, hold, rfl⟩ := Option.map_eq_some_iff.1 hword
  obtain ⟨-, rfl⟩ := of_getElem?_toWords hold
  rw [hr]
  by_cases hk : i / 64 = k
  · rw [if_pos hk, hf _ j hj, getLsbD_word s k hj]
    exact if_congr (by omega) rfl rfl
  · rw [if_neg hk, getLsbD_word s k hj, if_neg]
    omega

theorem insert_toWords (hi : i < s.capacity) :
    s.toWords.update i (· ||| WordSet.mask i) = (s.insert i).toWords := by
  refine update_toWords (b := true) (capacity_insert s i) (fun w j _ => ?_) fun m => ?_
  · rw [BitVec.getLsbD_or, getLsbD_mask]
    split
    · next h => rw [decide_eq_true h, Bool.or_true]
    · next h => rw [decide_eq_false h, Bool.or_false]
  · rw [contains_insert]
    by_cases hm : m = i
    · subst hm
      simp [hi]
    · simp [hm, Ne.symm hm]

theorem erase_toWords (hi : i < s.capacity) :
    s.toWords.update i (· &&& ~~~ WordSet.mask i) = (s.erase i).toWords := by
  refine update_toWords (b := false) (capacity_erase s i) (fun w j hj => ?_) fun m => ?_
  · rw [BitVec.getLsbD_and, BitVec.getLsbD_not, getLsbD_mask, decide_eq_true hj, Bool.true_and]
    split
    · next h => rw [decide_eq_true h, Bool.not_true, Bool.and_false]
    · next h => rw [decide_eq_false h, Bool.not_false, Bool.and_true]
  · rw [contains_erase]
    by_cases hm : m = i
    · subst hm
      simp
    · simp [hm, Ne.symm hm]

theorem insert?_toWords (s : IndexSet) (i : Nat) :
    s.toWords.insert? i = (s.insert? i).map (Prod.map id toWords) := by
  unfold WordSet.insert? insert?
  by_cases hi : i < s.capacity
  · have habsent : (s.toWords.wordAt i &&& WordSet.mask i == 0) = !s.contains i := by
      rw [← and_mask_toWords hi, bne, Bool.not_not]
    rw [if_pos (show i < s.toWords.capacity from hi), if_pos hi, habsent, insert_toWords hi]
    rfl
  · rw [if_neg (show ¬ i < s.toWords.capacity from hi), if_neg hi]
    rfl

theorem remove_toWords (s : IndexSet) (i : Nat) :
    s.toWords.remove i = Prod.map id toWords (s.remove i) := by
  unfold WordSet.remove remove
  by_cases hi : i < s.capacity
  · rw [if_pos (show i < s.toWords.capacity from hi), and_mask_toWords hi, erase_toWords hi]
    rfl
  · have hnot : s.contains i = false := by
      rw [← Bool.not_eq_true]
      exact fun h => hi (lt_capacity h)
    rw [if_neg (show ¬ i < s.toWords.capacity from hi), hnot, erase, if_neg hi]
    rfl

theorem ofList_toWords (n : Nat) (is : List Nat) : (ofList n is).toWords = WordSet.ofList n is := by
  have hfold : ∀ s : IndexSet, s.capacity = n → (is.foldl insert s).toWords =
      is.foldl (fun w i => if i < n then w.update i (· ||| WordSet.mask i) else w) s.toWords := by
    induction is with
    | nil => exact fun _ _ => rfl
    | cons i is ih =>
      intro s hs
      rw [List.foldl_cons, List.foldl_cons, ih _ ((capacity_insert s i).trans hs)]
      congr 1
      split
      · next hi => exact (insert_toWords (hs.symm ▸ hi)).symm
      · next hi => rw [insert, if_neg (hs.symm ▸ hi)]
  rw [ofList, hfold (empty n) rfl, empty_toWords]
  rfl

theorem clear_toWords (s : IndexSet) : s.clear.toWords = s.toWords.clear := by
  refine (eq_toWords rfl fun k word hword j _ => ?_).symm
  rw [WordSet.clear, List.getElem?_map, Option.map_eq_some_iff] at hword
  obtain ⟨-, -, rfl⟩ := hword
  simp [clear]

/-- An operation on bits, applied to all words, is applied to all memberships. -/
theorem zipWith_toWords {op : BitVec 64 → BitVec 64 → BitVec 64} {f : Bool → Bool → Bool}
    (ht : t.capacity = s.capacity) (hr : r.capacity = s.capacity)
    (hop : ∀ a b j, j < 64 → (op a b).getLsbD j = f (a.getLsbD j) (b.getLsbD j))
    (hmem : ∀ m, r.contains m = f (s.contains m) (t.contains m)) :
    s.toWords.words.zipWith op t.toWords.words = r.toWords.words := by
  refine List.ext_getElem? fun k => ?_
  rw [List.getElem?_zipWith]
  rcases Nat.lt_or_ge k (wordCount s.capacity) with hlt | hge
  · rw [getElem?_toWords hlt, getElem?_toWords (ht ▸ hlt), getElem?_toWords (hr ▸ hlt)]
    refine congrArg some (BitVec.eq_of_getLsbD_eq fun j hj => ?_)
    rw [hop _ _ j hj, getLsbD_word s k hj, getLsbD_word t k hj, getLsbD_word r k hj, hmem]
  · have hnone : r.toWords.words[k]? = none := by
      refine List.getElem?_eq_none ?_
      rw [r.toWords.length_words, capacity_toWords, hr]
      exact hge
    rw [List.getElem?_eq_none (s.toWords.length_words.symm ▸ hge), hnone]

/-- Some word changes exactly if the list of words does. -/
theorem any_zip_ne {op : BitVec 64 → BitVec 64 → BitVec 64} {as bs : List (BitVec 64)}
    (h : as.length = bs.length) :
    ((as.zip bs).any fun x => op x.1 x.2 != x.1) = (as.zipWith op bs != as) := by
  induction as generalizing bs with
  | nil => simp
  | cons a as ih =>
    cases bs with
    | nil => cases h
    | cons b bs =>
      rw [List.zip_cons_cons, List.any_cons, ih (Nat.succ.inj h), List.zipWith_cons_cons]
      simp [bne]

theorem combine?_toWords {op : BitVec 64 → BitVec 64 → BitVec 64} {f : Bool → Bool → Bool}
    (hr : r.capacity = s.capacity)
    (hop : ∀ a b j, j < 64 → (op a b).getLsbD j = f (a.getLsbD j) (b.getLsbD j))
    (hmem : t.capacity = s.capacity → ∀ m, r.contains m = f (s.contains m) (t.contains m)) :
    WordSet.combine? op s.toWords t.toWords =
      if s.capacity = t.capacity then some (r != s, r.toWords) else none := by
  unfold WordSet.combine?
  by_cases h : s.capacity = t.capacity
  · have hwords := zipWith_toWords h.symm hr hop (hmem h.symm)
    have hlength : s.toWords.words.length = t.toWords.words.length := by
      rw [s.toWords.length_words, t.toWords.length_words, capacity_toWords, capacity_toWords, h]
    have hchanged : ((s.toWords.words.zip t.toWords.words).any fun x => op x.1 x.2 != x.1) =
        (r != s) := by
      rw [any_zip_ne hlength, hwords, Bool.eq_iff_iff, bne_iff_ne, bne_iff_ne, not_iff_not,
        ← toWords_inj, WordSet.ext_iff]
      exact (and_iff_right hr).symm
    rw [dif_pos (show s.toWords.capacity = t.toWords.capacity from h), if_pos h]
    exact congrArg some (Prod.ext hchanged (WordSet.ext hr.symm hwords))
  · rw [dif_neg (show ¬ s.toWords.capacity = t.toWords.capacity from h), if_neg h]

theorem union?_toWords (s t : IndexSet) :
    s.toWords.union? t.toWords = (s.union? t).map (Prod.map id toWords) := by
  have hbit : ∀ (a b : BitVec 64) (j : Nat), j < 64 →
      (a ||| b).getLsbD j = (a.getLsbD j || b.getLsbD j) := fun _ _ _ _ => BitVec.getLsbD_or
  have hmem : t.capacity = s.capacity →
      ∀ m, (s.union t).contains m = (s.contains m || t.contains m) := by
    intro ht m
    rw [contains_union]
    by_cases hm : t.contains m = true
    · simp [hm, ht ▸ lt_capacity hm]
    · simp [hm]
  rw [WordSet.union?, combine?_toWords (capacity_union s t) hbit hmem, union?]
  split <;> rfl

theorem diff?_toWords (s t : IndexSet) :
    s.toWords.diff? t.toWords = (s.diff? t).map (Prod.map id toWords) := by
  have hbit : ∀ (a b : BitVec 64) (j : Nat), j < 64 →
      (a &&& ~~~ b).getLsbD j = (a.getLsbD j && !b.getLsbD j) := by
    intro a b j hj
    rw [BitVec.getLsbD_and, BitVec.getLsbD_not, decide_eq_true hj, Bool.true_and]
  rw [WordSet.diff?, combine?_toWords (f := fun x y => x && !y) (capacity_diff s t) hbit
    fun _ m => contains_diff s t m, diff?]
  split <;> rfl

theorem meet?_toWords (s t : IndexSet) :
    s.toWords.meet? t.toWords = (s.meet? t).map toWords := by
  rw [WordSet.meet?, union?_toWords, meet?, Option.map_map, Option.map_map]
  rfl

/-! ### Listing and counting words -/

/-- The positions of the bits of a word. -/
def bitsOf (w : BitVec 64) : List Nat := (List.range 64).filter w.getLsbD

/-- The indices whose bits are set in some words, of which the first is number `k`. -/
def indicesOf (words : List (BitVec 64)) (k : Nat) : List Nat :=
  (words.zipIdx k).flatMap fun x => (bitsOf x.1).map (64 * x.2 + ·)

theorem range_mul (b m : Nat) :
    List.range (b * m) = (List.range m).flatMap fun k => (List.range b).map (b * k + ·) := by
  induction m with
  | zero => rfl
  | succ m ih =>
    rw [Nat.mul_succ, List.range_add, ih, List.range_succ, List.flatMap_append,
      List.flatMap_singleton]

/-- **The members of a set are the indices whose bits are set in its words.** -/
theorem toList_eq_indicesOf (s : IndexSet) : s.toList = indicesOf s.toWords.words 0 := by
  obtain ⟨r, hr⟩ : ∃ r, 64 * wordCount s.capacity = s.capacity + r :=
    Nat.exists_eq_add_of_le (by unfold wordCount; omega)
  have hbeyond : ((List.range r).map (s.capacity + ·)).filter s.contains = [] := by
    simp only [List.filter_eq_nil_iff, List.forall_mem_map]
    exact fun i _ h => Nat.not_lt.2 (Nat.le_add_right s.capacity i) (lt_capacity h)
  have hzip : s.toWords.words.zipIdx 0 = (List.range (wordCount s.capacity)).map fun k =>
      (s.bits.extractLsb' (64 * k) 64, k) := by
    refine List.ext_getElem? fun k => ?_
    rw [List.getElem?_zipIdx, List.getElem?_map]
    rcases Nat.lt_or_ge k (wordCount s.capacity) with hlt | hge
    · rw [getElem?_toWords hlt, List.getElem?_range hlt]
      simp
    · rw [List.getElem?_eq_none (s.toWords.length_words.symm ▸ hge),
        List.getElem?_eq_none (List.length_range.symm ▸ hge)]
      rfl
  calc s.toList = (List.range (64 * wordCount s.capacity)).filter s.contains := by
        rw [toList_eq_filter, hr, List.range_add, List.filter_append, hbeyond, List.append_nil]
    _ = (List.range (wordCount s.capacity)).flatMap fun k =>
          (bitsOf (s.bits.extractLsb' (64 * k) 64)).map (64 * k + ·) := by
        rw [range_mul, List.filter_flatMap]
        refine List.flatMap_congr fun k _ => ?_
        rw [List.filter_map, bitsOf]
        refine congrArg _ (List.filter_congr fun j hj => ?_)
        exact (getLsbD_word s k (List.mem_range.1 hj)).symm
    _ = indicesOf s.toWords.words 0 := by
        rw [indicesOf, hzip, List.flatMap_map]

theorem length_bitsOf (w : BitVec 64) : (bitsOf w).length = w.cpop.toNat := by
  have hrec : ∀ k, w.cpopNatRec k 0 = ((List.range k).filter w.getLsbD).length := by
    intro k
    induction k with
    | zero => rfl
    | succ k ih =>
      rw [BitVec.cpopNatRec_succ, BitVec.cpopNatRec_add, ih, List.range_succ, List.filter_append,
        List.length_append]
      cases hbit : w.getLsbD k <;> simp [hbit]
  rw [BitVec.toNat_cpop, bitsOf, hrec]

theorem count_toWords (s : IndexSet) : s.toWords.count = s.size := by
  have hcount : ∀ (words : List (BitVec 64)) (k : Nat),
      (indicesOf words k).length = words.foldr (fun w total => w.cpop.toNat + total) 0 := by
    intro words
    induction words with
    | nil => exact fun _ => rfl
    | cons w words ih =>
      intro k
      rw [indicesOf, List.zipIdx_cons, List.flatMap_cons, List.length_append, List.length_map,
        length_bitsOf, List.foldr_cons]
      exact congrArg _ (ih (k + 1))
  rw [size, toList_eq_indicesOf, hcount]
  rfl

theorem isEmpty_toWords (s : IndexSet) : s.toWords.isEmpty = s.isEmpty := by
  rw [Bool.eq_iff_iff, isEmpty_iff, WordSet.isEmpty, List.all_eq_true]
  constructor
  · intro h i
    rw [← contains_toWords, WordSet.contains]
    split
    · next hi =>
      have hmem := List.mem_of_getElem? (getElem?_toWords (s := s) (lt_wordCount hi))
      rw [and_mask_ne_zero, wordAt_toWords hi, eq_of_beq (h _ hmem)]
      exact BitVec.getLsbD_zero
    · rfl
  · intro h word hword
    obtain ⟨k, hk⟩ := List.mem_iff_getElem?.1 hword
    refine beq_iff_eq.2 (BitVec.eq_of_getLsbD_eq fun j _ => ?_)
    have hzero : (0 : BitVec 64).getLsbD j = false := BitVec.getLsbD_zero
    rw [hzero, ← Bool.not_eq_true]
    intro hj
    have hnot := h (64 * k + j)
    rw [contains_of_getLsbD hk hj] at hnot
    cases hnot

theorem range_split {t n : Nat} (h : t < n) :
    List.range n = List.range t ++ t :: (List.range (n - (t + 1))).map (t + 1 + ·) := by
  conv_lhs => rw [← Nat.add_sub_of_le (Nat.succ_le_of_lt h)]
  rw [List.range_add, List.range_succ, List.append_assoc]
  rfl

/-- The bits of a word are its lowest one and those that are left when it is cleared. -/
theorem bitsOf_of_ne_zero {w : BitVec 64} (hw : w ≠ 0) :
    bitsOf w = w.ctz.toNat :: bitsOf (w &&& (w - 1)) := by
  have hlt : w.ctz.toNat < 64 := BitVec.lt_of_getLsbD (BitVec.getLsbD_true_ctz_of_ne_zero hw)
  -- nothing below the lowest bit, and the same above it
  have hbelow : ∀ {x : BitVec 64}, (∀ i, i < w.ctz.toNat → x.getLsbD i = false) →
      (List.range w.ctz.toNat).filter x.getLsbD = [] := by
    intro x hx
    rw [List.filter_eq_nil_iff]
    intro i hi
    rw [hx i (List.mem_range.1 hi)]
    exact Bool.false_ne_true
  have hlow : ∀ i, i < w.ctz.toNat → w.getLsbD i = false := fun i hi =>
    BitVec.getLsbD_false_of_lt_ctz hi
  have habove : ∀ r, ((List.range r).map (w.ctz.toNat + 1 + ·)).filter w.getLsbD =
      ((List.range r).map (w.ctz.toNat + 1 + ·)).filter (w &&& (w - 1)).getLsbD := by
    refine fun r => List.filter_congr fun i hi => ?_
    obtain ⟨d, -, rfl⟩ := List.mem_map.1 hi
    have hne : w.ctz.toNat + 1 + d ≠ w.ctz.toNat := by omega
    rw [getLsbD_and_sub_one hw, decide_eq_true hne, Bool.and_true]
  have hself : (w &&& (w - 1)).getLsbD w.ctz.toNat = false := by
    rw [getLsbD_and_sub_one hw, decide_eq_false (not_not_intro rfl), Bool.and_false]
  rw [bitsOf, bitsOf, range_split hlt, List.filter_append, List.filter_append, hbelow hlow,
    hbelow fun i hi => by rw [getLsbD_and_sub_one hw, hlow i hi, Bool.false_and],
    List.filter_cons_of_pos (BitVec.getLsbD_true_ctz_of_ne_zero hw),
    List.filter_cons_of_neg (by rw [hself]; exact Bool.false_ne_true), habove]
  rfl

section Scan

variable {u : WordSet} {c : WordSet.Scan}

/-- A word is listed bit by bit. -/
theorem scan_word {index : Nat} {w : BitVec 64} {found : List Nat}
    (h : c ∈ StateTransition.eval u.scanStep
      ⟨index, 0, found ++ (bitsOf w).map (64 * index + ·)⟩) :
    c ∈ StateTransition.eval u.scanStep ⟨index, w, found⟩ := by
  -- every round clears a bit, so the bits that are left get fewer
  induction hbits : bitsOf w generalizing w found with
  | nil =>
    have hzero : w = 0 := by
      by_contra hw
      rw [bitsOf_of_ne_zero hw] at hbits
      cases hbits
    rw [hbits, List.map_nil, List.append_nil] at h
    rwa [hzero]
  | cons b bits ih =>
    have hw : w ≠ 0 := by
      rintro rfl
      cases hbits
    rw [bitsOf_of_ne_zero hw, List.cons.injEq] at hbits
    refine mem_eval_of_some (if_pos hw) (ih ?_ hbits.2)
    rw [bitsOf_of_ne_zero hw] at h
    simpa using h

/-- From the end of a word on, the words after it are listed. -/
theorem scan_rest (u : WordSet) (index : Nat) (found : List Nat) :
    ∃ c ∈ StateTransition.eval u.scanStep ⟨index, 0, found⟩,
      c.found = found ++ indicesOf (u.words.drop (index + 1)) (index + 1) := by
  induction hrest : u.words.drop (index + 1) generalizing index found with
  | nil =>
    have hnone : u.words[index + 1]? = none :=
      List.getElem?_eq_none (List.drop_eq_nil_iff.1 hrest)
    refine ⟨_, mem_eval_of_none ?_, (List.append_nil found).symm⟩
    simp [WordSet.scanStep, hnone]
  | cons w rest ih =>
    have hnext : u.words[index + 1]? = some w := by
      have := congrArg (·[0]?) hrest
      simpa using this
    have hdrop : u.words.drop (index + 1 + 1) = rest := by
      rw [← List.drop_drop, hrest]
      rfl
    obtain ⟨c, hc, hfound⟩ := ih (index + 1) (found ++ (bitsOf w).map (64 * (index + 1) + ·)) hdrop
    refine ⟨c, mem_eval_of_some ?_ (scan_word hc), ?_⟩
    · simp [WordSet.scanStep, hnext]
    · rw [hfound, indicesOf, indicesOf, List.zipIdx_cons, List.flatMap_cons, List.append_assoc]

/-- **Listing ends, with the members of the set.** -/
theorem scan_toWords (s : IndexSet) :
    ∃ c ∈ StateTransition.eval s.toWords.scanStep s.toWords.scanStart, c.found = s.toList := by
  rw [toList_eq_indicesOf, WordSet.scanStart]
  rcases hwords : s.toWords.words with - | ⟨w, rest⟩
  · obtain ⟨c, hc, hfound⟩ := scan_rest s.toWords 0 []
    rw [hwords] at hfound
    exact ⟨c, hc, hfound⟩
  · obtain ⟨c, hc, hfound⟩ := scan_rest s.toWords 0 ([] ++ (bitsOf w).map (64 * 0 + ·))
    refine ⟨c, scan_word hc, ?_⟩
    rw [hfound, hwords, indicesOf, indicesOf, List.zipIdx_cons, List.flatMap_cons]
    rfl

end Scan

end IndexSet

end ChordalAlloc
