/-
  BoundaryTag.Audit — does a region still hold a heap? The first broken invariant, or the tally.

  Two walks. The physical one goes from the prologue to the epilogue: headers and footers of free
  blocks agree, every block knows whether its predecessor is allocated, no two free blocks touch,
  and the blocks end exactly at the high end. The other follows every free list: links stay in the
  heap and agree in both directions, members are free and filed under their class, and the lists
  of the doubling classes ascend. Both must meet the same number of free blocks, so that a list
  that runs in circles is found out.

  Nothing that is read is believed before it has been checked.
-/

import BoundaryTag.Error
import BoundaryTag.Buckets
import BoundaryTag.Stats

namespace BoundaryTag

/-- Reads memory and stops at the first corruption. -/
abbrev Checking := ExceptT Corruption Reading

namespace Audit

/-! ## Blocks -/

/-- What the physical walk remembers of the blocks it has passed. -/
structure Walk where
  stats : Stats
  /-- Whether the last block is allocated. The prologue is. -/
  prevAlloc : Bool
  /-- The last block, if it is free. -/
  prevFree : Option Nat
  deriving DecidableEq, Repr

def Walk.pass (w : Walk) (block : Block) : Walk where
  stats := w.stats.count block.tag
  prevAlloc := block.tag.alloc
  prevFree := if block.tag.alloc then none else some block.bp

/-- A block without fault, and the one above it, which is nearer to the high end. -/
structure Passed (r : Region) (bp : Nat) where
  block : Block
  next : Nat
  lt_next : bp < next
  next_le : next ≤ r.high

/-- Looks at the block `bp`; none where the walk ends at a header of size zero. -/
def inspect (r : Region) (w : Walk) (bp : Nat) : Checking (Option (Passed r bp)) := do
  if !(← isAligned bp) then
    throw (.misaligned bp)
  let tag ← r.tag bp
  if tag.size = 0 then
    return none
  else if small : tag.size < minBlock then
    throw (.undersized bp tag.size)
  else if long : r.high < bp + tag.size then
    throw (.outOfBounds bp tag.size)
  else
    if tag.prevAlloc != w.prevAlloc then
      throw (.prevAlloc bp tag.prevAlloc w.prevAlloc)
    let block ← r.block bp
    if let .free _ _ footer _ := block then
      if footer.size != tag.size || footer.alloc then
        throw (.tagMismatch bp tag.encode footer.encode)
      if let some first := w.prevFree then
        throw (.uncoalesced first bp)
    return some ⟨block, bp + tag.size, by simp only [minBlock] at small; omega, by omega⟩

/-- The end of the walk: the last word of the region, and the header of size zero in it. -/
def close (r : Region) (w : Walk) (bp : Nat) : Checking Stats := do
  let header ← r.read (← r.header bp)
  if bp != r.high || header != Tag.encode ⟨0, w.prevAlloc, true⟩ then
    throw (.epilogue bp header)
  return w.stats

/-- The blocks that passed, and how the walk ended. -/
structure Walked where
  blocks : List Block
  outcome : Except Fault (Except Corruption Stats)

def walkFrom (r : Region) (m : Memory) (w : Walk) (bp : Nat) : Walked :=
  match (inspect r w bp).run m with
  | .error fault => ⟨[], .error fault⟩
  | .ok (.error corruption) => ⟨[], .ok (.error corruption)⟩
  | .ok (.ok none) => ⟨[], (close r w bp).run m⟩
  | .ok (.ok (some passed)) =>
    let rest := walkFrom r m (w.pass passed.block) passed.next
    ⟨passed.block :: rest.blocks, rest.outcome⟩
termination_by r.high - bp
decreasing_by
  have := passed.lt_next
  have := passed.next_le
  omega

/-- Both words of the prologue. -/
def checkPrologue (r : Region) (prologue : Nat) : Checking Unit := do
  let sentinel := Tag.encode ⟨doubleWord, true, true⟩
  let header ← r.read (← r.header prologue)
  let footer ← r.read prologue
  if header != sentinel || footer != sentinel then
    throw (.prologue header footer)

def walk (r : Region) (m : Memory) (prologue : Nat) : Walked :=
  match (checkPrologue r prologue).run m with
  | .error fault => ⟨[], .error fault⟩
  | .ok (.error corruption) => ⟨[], .ok (.error corruption)⟩
  | .ok (.ok ()) => walkFrom r m ⟨{ arenaBytes := r.span }, true, none⟩ (prologue + doubleWord)

/-! ## Lists -/

/-- Follows one list from `cur` on and adds its length to `inIndex`, which never passes the number
    of free blocks in the heap. -/
def checkList (r : Region) (first bucket inHeap inIndex : Nat) (prev : Option Nat)
    (lastSize : Nat) :
    Option Nat → Checking Nat
  | none => return inIndex
  | some bp =>
    if inIndex < inHeap then do
      if bp < first || r.high ≤ bp then
        throw (.linkOutOfBounds bucket bp)
      if !(← isAligned bp) then
        throw (.linkOutOfBounds bucket bp)
      let tag ← r.tag bp
      if tag.alloc then
        throw (.allocatedInList bucket bp)
      if tag.size < minBlock || r.high < bp + (tag.size - wordSize) then
        throw (.linkOutOfBounds bucket bp)
      let expected ← classOf tag.size
      if expected != bucket then
        throw (.wrongBucket bp tag.size bucket expected)
      if !isExact bucket && tag.size < lastSize then
        throw (.unsorted bucket bp)
      let links ← r.links bp
      if links.prev != prev then
        throw (.linkAsymmetry bucket bp)
      checkList r first bucket inHeap (inIndex + 1) (some bp) tag.size links.next
    else
      throw (.freeCount inHeap (inIndex + 1))
termination_by inHeap - inIndex

/-- Follows the lists of these buckets. -/
def checkLists (r : Region) (buckets : Buckets) (first inHeap inIndex : Nat) :
    List Nat → Checking Unit
  | [] => if inIndex != inHeap then throw (.freeCount inHeap inIndex) else return
  | bucket :: rest => do
    let inIndex ← checkList r first bucket inHeap inIndex none 0 (buckets.head bucket)
    checkLists r buckets first inHeap inIndex rest

/-- Both walks. -/
def validate (r : Region) (buckets : Buckets) (prologue : Nat) : Checking Stats := do
  let stats : Stats ← ExceptT.mk fun m => (walk r m prologue).outcome
  checkLists r buckets (prologue + doubleWord) stats.freeBlocks 0 (List.range bucketCount)
  return stats

end Audit

end BoundaryTag
