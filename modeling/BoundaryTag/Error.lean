/-
  BoundaryTag.Error — why an operation was refused, and what the audit of a heap can find broken.

  Each error is its cause; `message` words it, with the addresses in it written as the given
  `AddressText` says.
-/

import BoundaryTag.Text.Address

namespace BoundaryTag

/-- Failure to make or to grow an arena. -/
inductive ArenaError where
  | reserve (cause : String)
  | exhausted (requested remaining : Nat)
  | discontiguous (expected found : Nat)
  | tooLarge (requested : Nat)
  deriving DecidableEq, Repr

/-- Why an address given back to a heap was rejected. -/
inductive AddressFault where
  | outOfBounds
  | misaligned
  | notAllocated
  deriving DecidableEq, Repr

inductive HeapError where
  | arena (e : ArenaError)
  | invalidAddress (addr : Nat) (fault : AddressFault)
  | sizeOverflow (count elemSize : Nat)
  | requestTooLarge (size : Nat)
  deriving DecidableEq, Repr

/-- The first broken invariant that the audit of a heap found. -/
inductive Corruption where
  | prologue (header footer : Nat)
  | epilogue (addr header : Nat)
  | misaligned (addr : Nat)
  | outOfBounds (addr size : Nat)
  | undersized (addr size : Nat)
  | tagMismatch (addr header footer : Nat)
  | prevAlloc (addr : Nat) (recorded actual : Bool)
  | uncoalesced (first second : Nat)
  | linkOutOfBounds (bucket addr : Nat)
  | allocatedInList (bucket addr : Nat)
  | linkAsymmetry (bucket addr : Nat)
  | wrongBucket (addr size bucket expected : Nat)
  | unsorted (bucket addr : Nat)
  | freeCount (inHeap inIndex : Nat)
  deriving DecidableEq, Repr

namespace ArenaError

def message (text : AddressText) : ArenaError → String
  | reserve cause => s!"failed to reserve arena memory: {cause}"
  | exhausted requested remaining =>
    s!"arena exhausted: requested {requested} bytes, {remaining} remaining"
  | discontiguous expected found =>
    s!"arena break moved by a third party: expected {text.hex expected}, found {text.hex found}"
  | tooLarge requested =>
    s!"extension of {requested} bytes does not fit the platform break increment"

end ArenaError

namespace AddressFault

def name : AddressFault → String
  | outOfBounds => "OutOfBounds"
  | misaligned => "Misaligned"
  | notAllocated => "NotAllocated"

end AddressFault

namespace HeapError

def message (text : AddressText) : HeapError → String
  | arena e => e.message text
  | invalidAddress addr fault => s!"invalid block address {text.hex addr}: {fault.name}"
  | sizeOverflow count elemSize => s!"allocation of {count} x {elemSize} bytes overflows usize"
  | requestTooLarge size => s!"request of {size} bytes exceeds the largest representable block"

end HeapError

namespace Corruption

def message (text : AddressText) : Corruption → String
  | prologue header footer =>
    s!"prologue block corrupted: header {hex header}, footer {hex footer}"
  | epilogue addr header => s!"epilogue header corrupted at {text.hex addr}: {hex header}"
  | misaligned addr => s!"block {text.hex addr} is not word aligned"
  | outOfBounds addr size => s!"block {text.hex addr} with size {size} runs past the arena end"
  | undersized addr size => s!"block {text.hex addr} has size {size}, below the minimum block"
  | tagMismatch addr header footer =>
    s!"free block {text.hex addr}: header {hex header} disagrees with footer {hex footer}"
  | prevAlloc addr recorded actual =>
    s!"block {text.hex addr}: prev_alloc bit is {recorded} but predecessor allocation is {actual}"
  | uncoalesced first second =>
    s!"free blocks {text.hex first} and {text.hex second} are adjacent and were not coalesced"
  | linkOutOfBounds bucket addr => s!"bucket {bucket}: link to {text.hex addr} leaves the heap"
  | allocatedInList bucket addr => s!"bucket {bucket}: list node {text.hex addr} is allocated"
  | linkAsymmetry bucket addr =>
    s!"bucket {bucket}: links around {text.hex addr} are not symmetric"
  | wrongBucket addr size bucket expected =>
    s!"block {text.hex addr} of size {size} is filed under bucket {bucket}, expected {expected}"
  | unsorted bucket addr => s!"bucket {bucket} is not sorted by size at {text.hex addr}"
  | freeCount inHeap inIndex =>
    s!"{inHeap} free blocks in the heap but {inIndex} in the free lists"

end Corruption

end BoundaryTag
