/-
ChordalAlloc/Partition.lean

A partition of the indices `0 .. size-1` into classes, kept as a forest:
every index links to a parent, and a root links to itself.  The root of a
tree names its class.

* `root` climbs to the name of a class without touching the forest;
* `find` climbs as well and then hangs everything it met directly below the
  root, which shortens later climbs and changes no root;
* `union` hangs one root below the other, the one of smaller rank below the
  one of larger rank, so that trees stay shallow.

Ranks are kept in a byte: a rank that has reached `maxRank` stays there.
A climb is given as many steps as there are indices, which is enough for
every forest without a loop.
-/
import ChordalAlloc.Space

namespace ChordalAlloc

/-- Classes of indices, as a forest of parent links with a rank per index. -/
structure Partition where
  /-- The parent of each index; a root is its own parent. -/
  parent : Array Nat
  /-- A bound on the height of the tree below each root. -/
  rank : Array Nat
deriving DecidableEq, Repr, Inhabited

namespace Partition

/-- The largest rank a byte holds. -/
def maxRank : Nat := 255

/-- Every one of `n` indices in a class of its own. -/
def discrete (n : Nat) : Partition := ⟨Array.range n, Array.replicate n 0⟩

/-- The number of indices. -/
def size (p : Partition) : Nat := p.parent.size

/-- Append an index in a class of its own, and name it. -/
def addIndex (p : Partition) : Nat × Partition :=
  (p.size, ⟨p.parent.push p.size, p.rank.push 0⟩)

/-! ### Climbing -/

/-- The parent of an index; an index outside the forest is its own parent. -/
def link (p : Partition) (i : Nat) : Nat := p.parent.getD i i

/-- Climb at most the given number of links. -/
def climb (p : Partition) : Nat → Nat → Nat
  | 0, i => i
  | k + 1, i => if p.link i = i then i else climb p k (p.link i)

/-- The name of the class of `i`. -/
def root (p : Partition) (i : Nat) : Nat := p.climb p.size i

/-- Whether two indices share a class. -/
def same (p : Partition) (i j : Nat) : Bool := p.root i == p.root j

/-- Hang `i` and what lies above it, for at most the given number of links, directly below `r`. -/
def flatten (p : Partition) (r : Nat) : Nat → Nat → Partition
  | 0, _ => p
  | k + 1, i =>
    if p.link i = r then p
    else flatten { p with parent := p.parent.setIfInBounds i r } r k (p.link i)

/-- The name of the class of `i`, and the forest with the path to it shortened. -/
def find (p : Partition) (i : Nat) : Nat × Partition :=
  (p.root i, p.flatten (p.root i) p.size i)

/-! ### Joining classes -/

/-- One rank higher, as far as a byte goes. -/
def bump (r : Nat) : Nat := min (r + 1) maxRank

/-- Hang the root `low` below the root `high`; of two equal ranks the upper one grows. -/
def hang (p : Partition) (low high : Nat) : Partition :=
  { parent := p.parent.setIfInBounds low high
    rank := if p.rank.getD low 0 = p.rank.getD high 0 then p.rank.modify high bump else p.rank }

/-- Join the classes of `i` and `j`, and name the result.  The root of larger
rank stays a root; of two equal ranks that of `i` does. -/
def union (p : Partition) (i j : Nat) : Nat × Partition :=
  let (ri, p) := p.find i
  let (rj, p) := p.find j
  if ri = rj then (ri, p)
  -- the shallower tree goes below the deeper one
  else if p.rank.getD ri 0 < p.rank.getD rj 0 then (rj, p.hang ri rj)
  else (ri, p.hang rj ri)

/-! ### Requests that may not fit -/

/-- As `discrete`, as long as there can be a link for each index. -/
def discrete? (n : Nat) : Option Partition :=
  if Space.fits n Space.index then some (discrete n) else none

/-- As `find`, for an index of the forest. -/
def find? (p : Partition) (i : Nat) : Option (Nat × Partition) :=
  if i < p.size then some (p.find i) else none

/-- As `union`, for indices of the forest. -/
def union? (p : Partition) (i j : Nat) : Option (Nat × Partition) :=
  if i < p.size ∧ j < p.size then some (p.union i j) else none

/-- As `same`, for indices of the forest. -/
def same? (p : Partition) (i j : Nat) : Option Bool :=
  if i < p.size ∧ j < p.size then some (p.same i j) else none

/-! ### Numbering the classes -/

/-- A numbering in progress. -/
structure Numbering where
  /-- The number of each root met so far. -/
  known : Array (Option Nat)
  /-- How many numbers are in use. -/
  count : Nat := 0
  /-- The numbers handed to the indices, latest first. -/
  classes : List Nat := []

/-- Hand the next index, whose class is named by `r`, its number. -/
def Numbering.add (n : Numbering) (r : Nat) : Numbering :=
  match n.known[r]?.join with
  | some k => { n with classes := k :: n.classes }
  | none =>
    { known := n.known.setIfInBounds r (some n.count)
      count := n.count + 1
      classes := n.count :: n.classes }

/-- The class number of every index, and the number of classes.  Numbers are handed out
upwards from zero in the order in which the classes first appear. -/
def numbering (p : Partition) : List Nat × Nat :=
  let start : Numbering := { known := Array.replicate p.size none }
  let n := (List.range p.size).foldl (fun n i => n.add (p.root i)) start
  (n.classes.reverse, n.count)

end Partition

end ChordalAlloc
