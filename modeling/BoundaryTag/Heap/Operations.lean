/-
  BoundaryTag.Heap.Operations — what a program asks of a heap: allocate, release, reallocate,
  zero-allocate, and questions about blocks.

  Zero stands for the null address. `tryRelease`, `tryReallocate` and `tryZeroAllocate` stop with
  the reason when they refuse; their plain twins answer that nothing was done, and tell about
  rejected addresses.
-/

import BoundaryTag.Heap.Basic

namespace BoundaryTag.Heap

variable {A : Type} [Arena A]

def modifyMemory (f : Memory → Memory) : HeapM A Unit :=
  modify fun h => { h with store := { h.store with memory := f h.store.memory } }

/-- The address of `size` bytes, aligned to a word; none for no bytes or when the arena cannot
    grow. -/
def allocate (size : Nat) : HeapM A (Option Nat) := do
  if size = 0 then return none
  match ← attempt (allocateBlock size) with
  | .error _ => return none
  | .ok bp =>
    checkAfter .allocate
    return some bp

/-- Takes back a block. -/
def tryRelease (addr : Nat) : HeapM A Unit := do
  if addr = 0 then return
  checkAddress addr
  let r ← region
  let size ← r.size addr
  Store.free r addr
  log (.released size addr)
  checkAfter .release

/-- Takes back a block. Null, and any address that is not a block's, is ignored. -/
def release (addr : Nat) : HeapM A Unit := do
  if let .error (.invalidAddress addr fault) ← attempt (tryRelease addr) then
    log (.ignored .release addr fault)

/-- Moves the block `addr`, of `size` bytes, to a new block for a request, and frees it. -/
def move (addr size request : Nat) : HeapM A Nat := do
  let new ← allocateBlock request
  let r ← region
  modifyMemory fun m => m.copy addr new (min (size - wordSize) request)
  Store.free r addr
  return new

/-- Gives the block `addr` a new size, in place when possible. No bytes release it, and null
    allocates. When this fails the block is as it was. -/
def tryReallocate (addr request : Nat) : HeapM A (Option Nat) := do
  if request = 0 then
    tryRelease addr
    return none
  if addr = 0 then
    let bp ← allocateBlock request
    checkAfter .reallocate
    return some bp
  checkAddress addr
  let size ← match blockSize request with
    | .ok size => pure size
    | .error e => refuse e
  let r ← region
  let oldSize ← r.size addr
  let new ← if size ≤ oldSize then do
      Store.split r addr size
      pure addr
    else do
      let grown ← Store.growInPlace r addr size
      if grown then pure addr else move addr oldSize request
  log (.reallocated addr new request (new == addr))
  checkAfter .reallocate
  return some new

def reallocate (addr request : Nat) : HeapM A (Option Nat) := do
  match ← attempt (tryReallocate addr request) with
  | .ok new => return new
  | .error (.invalidAddress addr fault) =>
    log (.ignored .reallocate addr fault)
    return none
  | .error _ => return none

/-- The address of `count * elemSize` bytes, all zero; none for no bytes. -/
def tryZeroAllocate (count elemSize : Nat) : HeapM A (Option Nat) := do
  let bytes := count * elemSize
  if wordLimit ≤ bytes then
    log (.sizeOverflow count elemSize)
    refuse (.sizeOverflow count elemSize)
  if bytes = 0 then return none
  let bp ← allocateBlock bytes
  modifyMemory fun m => m.fill bp 0 bytes
  checkAfter .zeroAllocate
  return some bp

def zeroAllocate (count elemSize : Nat) : HeapM A (Option Nat) := do
  match ← attempt (tryZeroAllocate count elemSize) with
  | .ok new => return new
  | .error _ => return none

/-- The payload bytes of an allocated block; none for any other address. -/
def usableSize (addr : Nat) : HeapM A (Option Nat) := do
  match ← attempt (checkAddress addr) with
  | .error _ => return none
  | .ok () => return some ((← (← region).size addr) - wordSize)

/-- Counts blocks and bytes. Nothing is checked. -/
def stats : HeapM A Stats := do
  Stats.tally (← region) (← get).firstBlock

/-- The event that shows a block to whoever asked for a verbose check. -/
def saw : Block → Event
  | .allocated bp tag => .sawAllocated bp tag.size tag.prevAlloc
  | .free bp tag _ links => .sawFree bp tag.size tag.prevAlloc links.next links.prev

/-- A verbose check validates the heap and shows every block on the way, up to the first one that is
    broken. Any other check does nothing. -/
def checkHeap (verbose : Bool) : HeapM A (Except Corruption Unit) := do
  if !verbose then return .ok ()
  let h ← get
  let blocks := (Audit.walk (← region) h.store.memory h.prologue).blocks
  blocks.forM fun block => emit (saw block)
  return (← validate).map fun _ => ()

end BoundaryTag.Heap
