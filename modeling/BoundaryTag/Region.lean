/-
  BoundaryTag.Region — the word-level view of a region `[low, high)` and the codec of its blocks.

  A block is named by its payload address `bp`; its header is the word below it. A free block also
  has a footer, the same tag in its last word, and two links in its first two payload words. A link
  is stored as the distance from the region's low end, with zero for none, so no absolute address
  is ever written into the region. Every word read or written lies inside the region; any other
  access is a fault.

  `Reading` computes from the memory and leaves it alone; `Writing` may change it, and a fault
  leaves what was written before it.
-/

import BoundaryTag.Memory
import BoundaryTag.Tag

namespace BoundaryTag

abbrev Reading := ReaderT Memory (Except Fault)

abbrev Writing := EStateM Fault Memory

instance : MonadLift Reading Writing where
  monadLift x := fun m => match x m with
    | .ok a => .ok a m
    | .error f => .error f m

/-- The free-list neighbours of a free block. -/
structure Links where
  next : Option Nat
  prev : Option Nat
  deriving DecidableEq, Repr

/-- A block as its header describes it. -/
inductive Block where
  | allocated (bp : Nat) (tag : Tag)
  | free (bp : Nat) (tag footer : Tag) (links : Links)
  deriving DecidableEq, Repr

namespace Block

def bp : Block → Nat
  | allocated bp _ => bp
  | free bp _ _ _ => bp

def tag : Block → Tag
  | allocated _ tag => tag
  | free _ tag _ _ => tag

end Block

structure Region where
  low : Nat
  high : Nat
  deriving DecidableEq, Repr

namespace Region

/-- The region between two bounds, which must not cross and must start on a word. -/
def between (low high : Nat) : Except Fault Region :=
  if low ≤ high ∧ low % wordSize = 0 then .ok ⟨low, high⟩ else .error (.bounds low high)

/-- Bytes in the region. -/
def span (r : Region) : Nat := r.high - r.low

/-- An address of the region, or its high end. -/
abbrev Contains (r : Region) (addr : Nat) : Prop := r.low ≤ addr ∧ addr ≤ r.high

/-- The whole word at `addr` lies in the region. -/
abbrev HoldsWord (r : Region) (addr : Nat) : Prop := r.low ≤ addr ∧ addr + wordSize ≤ r.high

def read (r : Region) (addr : Nat) : Reading Nat := fun m =>
  if r.HoldsWord addr then .ok (m.word addr) else .error (.outside addr)

def write (r : Region) (addr word : Nat) : Writing Unit := fun m =>
  if r.HoldsWord addr then .ok () (m.setWord addr word) else .error (.outside addr) m

/-! ## Tags -/

/-- The address of a block's header. -/
def header (r : Region) (bp : Nat) : Except Fault Nat :=
  if r.Contains bp then checkedSub bp wordSize else .error (.outside bp)

def tag (r : Region) (bp : Nat) : Reading Tag := do
  return Tag.decode (← r.read (← r.header bp))

def size (r : Region) (bp : Nat) : Reading Nat := return (← r.tag bp).size

/-- The address of a block's last word, where a free block has its footer. -/
def footer (r : Region) (bp : Nat) : Reading Nat := do
  checkedSub (← checkedAdd bp (← r.size bp)) doubleWord

def footerTag (r : Region) (bp : Nat) : Reading Tag := do
  return Tag.decode (← r.read (← r.footer bp))

/-- The block right above `bp`, or the high end's block of size zero. -/
def above (r : Region) (bp : Nat) : Reading Nat := do
  checkedAdd bp (← r.size bp)

/-- The block right below `bp`, found by its footer. Only a free block has one. -/
def below (r : Region) (bp : Nat) : Reading Nat := do
  if (← r.tag bp).prevAlloc then throw (.noFooter bp)
  let word ← r.read (← checkedSub bp doubleWord)
  checkedSub bp (Tag.decode word).size

/-- Writes an allocated block: its header. -/
def writeAllocated (r : Region) (bp size : Nat) (prevAlloc : Bool) : Writing Unit := do
  r.write (← r.header bp) (Tag.encode ⟨size, prevAlloc, true⟩)

/-- Writes a free block: header, then footer. Its links stay as they are. -/
def writeFree (r : Region) (bp size : Nat) (prevAlloc : Bool) : Writing Unit := do
  let word := Tag.encode ⟨size, prevAlloc, false⟩
  r.write (← r.header bp) word
  r.write (← checkedSub (← checkedAdd bp size) doubleWord) word

/-- Sets the bit that tells whether `bp`'s predecessor is allocated, in a free block's footer
    too. Nothing is written when the bit is right already. -/
def setPrevAlloc (r : Region) (bp : Nat) (prevAlloc : Bool) : Writing Unit := do
  let tag ← r.tag bp
  if tag.prevAlloc != prevAlloc then
    let word := Tag.encode ⟨tag.size, prevAlloc, tag.alloc⟩
    r.write (← r.header bp) word
    if !tag.alloc && tag.size > 0 then
      r.write (← r.footer bp) word

/-! ## Links -/

def encodeLink (r : Region) : Option Nat → Except Fault Nat
  | none => .ok 0
  | some bp => checkedSub bp r.low

def decodeLink (r : Region) (offset : Nat) : Except Fault (Option Nat) :=
  if offset = 0 then .ok none else return some (← checkedAdd r.low offset)

def nextLink (r : Region) (bp : Nat) : Reading (Option Nat) := do
  r.decodeLink (← r.read bp)

def prevLink (r : Region) (bp : Nat) : Reading (Option Nat) := do
  r.decodeLink (← r.read (← checkedAdd bp wordSize))

def links (r : Region) (bp : Nat) : Reading Links := return ⟨← r.nextLink bp, ← r.prevLink bp⟩

def setNext (r : Region) (bp : Nat) (next : Option Nat) : Writing Unit := do
  r.write bp (← r.encodeLink next)

def setPrev (r : Region) (bp : Nat) (prev : Option Nat) : Writing Unit := do
  r.write (← checkedAdd bp wordSize) (← r.encodeLink prev)

def block (r : Region) (bp : Nat) : Reading Block := do
  let tag ← r.tag bp
  if tag.alloc then
    return .allocated bp tag
  else
    return .free bp tag (← r.footerTag bp) (← r.links bp)

end Region

end BoundaryTag
