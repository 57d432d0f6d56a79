/-
  BoundaryTag.GlobalHeap.Call — what a program does with a global heap, as data.

  A program asks for memory by layout, hands an address back with the layout that it has for
  it, and writes into the memory it was given. A reallocation changes the size of the
  layout, never its alignment.
-/

import BoundaryTag.GlobalHeap

namespace BoundaryTag

inductive GlobalCall where
  | allocate (layout : Layout)
  | zeroAllocate (layout : Layout)
  | reallocate (addr : Nat) (layout : Layout) (newSize : Nat)
  | deallocate (addr : Nat) (layout : Layout)
  /-- The program's own write, from an address on. -/
  | store (addr : Nat) (bytes : List UInt8)
  deriving DecidableEq, Repr

namespace GlobalCall

variable {A : Type} [Arena A]

/-- The address that the call answers with; none for null and for calls that answer with no
    address. -/
def perform : GlobalCall → GlobalM A (Option Nat)
  | allocate layout => GlobalHeap.allocate layout
  | zeroAllocate layout => GlobalHeap.zeroAllocate layout
  | reallocate addr layout newSize => GlobalHeap.reallocate addr layout newSize
  | deallocate addr layout => do
    GlobalHeap.deallocate addr layout
    return none
  | store addr bytes => do
    GlobalHeap.modifyMemory fun m => m.store addr bytes
    return none

/-- Performs calls one after the other and collects their answers. -/
def run : List GlobalCall → GlobalM A (List (Option Nat))
  | [] => return []
  | call :: rest => do
    let answer ← call.perform
    return answer :: (← run rest)

end GlobalCall

end BoundaryTag
