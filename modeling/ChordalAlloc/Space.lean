/-
ChordalAlloc/Space.lean

How large a table can be.  Indices are 64-bit words, and a table may take up
at most half of the address space.  A caller may ask for more; whoever makes
a table of a size that comes from outside asks `fits` first and refuses
otherwise.
-/

namespace ChordalAlloc

namespace Space

/-- The largest index. -/
def lastIndex : Nat := 0xFFFFFFFFFFFFFFFF

/-- The largest number of bytes a table may take up. -/
def maxBytes : Nat := 0x7FFFFFFFFFFFFFFF

/-- The bytes of a flag. -/
def flag : Nat := 1

/-- The bytes of an index. -/
def index : Nat := 8

/-- The bytes of the handle of a set of neighbours: where it is, how deep and how large. -/
def row : Nat := 24

/-- Whether a table of `count` entries of `width` bytes each can be. -/
def fits (count width : Nat) : Bool := count * width ≤ maxBytes

end Space

end ChordalAlloc
