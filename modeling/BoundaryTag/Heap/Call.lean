/-
  BoundaryTag.Heap.Call — what a program does with a heap, as data.

  A program calls the heap's operations and writes into the memory it was given. A run is a list of
  such calls; it ends early when a call meets a fault or a corrupted heap, and goes on after a
  refusal.
-/

import BoundaryTag.Heap.Operations

namespace BoundaryTag

inductive Call where
  | allocate (size : Nat)
  | zeroAllocate (count elemSize : Nat)
  | tryZeroAllocate (count elemSize : Nat)
  | reallocate (addr size : Nat)
  | tryReallocate (addr size : Nat)
  | release (addr : Nat)
  | tryRelease (addr : Nat)
  /-- The program's own write, from an address on. -/
  | store (addr : Nat) (bytes : List UInt8)
  deriving DecidableEq, Repr

namespace Call

variable {A : Type} [Arena A]

/-- The address that the call answers with, if it answers with one. -/
def perform : Call → HeapM A (Option Nat)
  | allocate size => Heap.allocate size
  | zeroAllocate count elemSize => Heap.zeroAllocate count elemSize
  | tryZeroAllocate count elemSize => Heap.tryZeroAllocate count elemSize
  | reallocate addr size => Heap.reallocate addr size
  | tryReallocate addr size => Heap.tryReallocate addr size
  | release addr => do
    Heap.release addr
    return none
  | tryRelease addr => do
    Heap.tryRelease addr
    return none
  | store addr bytes => do
    Heap.modifyMemory fun m => m.store addr bytes
    return none

/-- Performs calls one after the other and collects how each of them ended. -/
def run : List Call → HeapM A (List (Except HeapError (Option Nat)))
  | [] => return []
  | call :: rest => do
    let answer ← Heap.attempt call.perform
    return answer :: (← run rest)

end Call

end BoundaryTag
