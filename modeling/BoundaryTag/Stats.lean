/-
  BoundaryTag.Stats — blocks and bytes, counted in one walk over a heap.

  The walk steps from header to header, up to the header of size zero or the region's end. It
  believes every header it reads.
-/

import BoundaryTag.Region

namespace BoundaryTag

structure Stats where
  arenaBytes : Nat := 0
  allocatedBlocks : Nat := 0
  allocatedBytes : Nat := 0
  freeBlocks : Nat := 0
  freeBytes : Nat := 0
  deriving DecidableEq, Repr

namespace Stats

/-- Counts one more block. -/
def count (s : Stats) (tag : Tag) : Stats :=
  if tag.alloc then
    { s with allocatedBlocks := s.allocatedBlocks + 1
             allocatedBytes := s.allocatedBytes + tag.size }
  else
    { s with freeBlocks := s.freeBlocks + 1, freeBytes := s.freeBytes + tag.size }

/-- Adds the blocks from `bp` on to `s`. -/
def tallyFrom (r : Region) (bp : Nat) (s : Stats) : Reading Stats :=
  if bp < r.high then do
    let tag ← r.tag bp
    if tag.size = 0 then
      return s
    else if bp + tag.size < wordLimit then
      tallyFrom r (bp + tag.size) (s.count tag)
    else
      throw .overflow
  else
    return s
termination_by r.high - bp

def tally (r : Region) (first : Nat) : Reading Stats := tallyFrom r first { arenaBytes := r.span }

end Stats

end BoundaryTag
