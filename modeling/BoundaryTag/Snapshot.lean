/-
  BoundaryTag.Snapshot — a picture of a heap: its blocks in physical order and its free lists.

  The blocks are those that the headers tell of, from the first one to the header of size zero. The
  lists are followed through memory as it is; a list that leaves the region, or has more than
  `chainLimit` members, is cut off there. A link that is no address at all, because the region's low
  end and the stored distance have no sum, leaves the heap without a picture.
-/

import BoundaryTag.Heap.Basic

namespace BoundaryTag

/-- A free list as far as it can be followed. -/
structure Chain where
  members : List Nat
  /-- Whether the last member is the one that the walk stopped at. -/
  cut : Bool
  deriving DecidableEq, Repr

structure Snapshot where
  /-- Payload addresses and headers. -/
  blocks : List (Nat × Tag)
  epilogue : Nat × Tag
  /-- The classes that have members. -/
  buckets : List (Nat × Chain)
  deriving DecidableEq, Repr

namespace Snapshot

/-- The blocks from `bp` on, and the header of size zero that ends them. -/
def blocksFrom (r : Region) (bp : Nat) : Reading (List (Nat × Tag) × (Nat × Tag)) :=
  if bp ≤ r.high then do
    let tag ← r.tag bp
    if tag.size = 0 then
      return ([], (bp, tag))
    else if bp + tag.size < wordLimit then
      let (blocks, epilogue) ← blocksFrom r (bp + tag.size)
      return ((bp, tag) :: blocks, epilogue)
    else
      throw .overflow
  else
    throw (.outside bp)
termination_by r.high + 1 - bp

@[simp] abbrev chainLimit : Nat := 500

/-- The list from `bp` on, with at most `more` members after the first. -/
def chainFrom (r : Region) : Nat → Option Nat → Reading Chain
  | _, none => return ⟨[], false⟩
  | 0, some bp => return ⟨[bp], true⟩
  | more + 1, some bp =>
    if bp % wordSize = 0 ∧ r.low ≤ bp ∧ bp + doubleWord ≤ r.high then do
      let rest ← chainFrom r more (← r.nextLink bp)
      return ⟨bp :: rest.members, rest.cut⟩
    else return ⟨[bp], true⟩

/-- The lists of these buckets that have members. -/
def chainsAmong (r : Region) (buckets : Buckets) : List Nat → Reading (List (Nat × Chain))
  | [] => return []
  | cls :: rest => do
    match buckets.head cls with
    | none => chainsAmong r buckets rest
    | some bp =>
      let chain ← chainFrom r chainLimit (some bp)
      return (cls, chain) :: (← chainsAmong r buckets rest)

/-- The lists that have members, by class. -/
def chains (r : Region) (buckets : Buckets) : Reading (List (Nat × Chain)) :=
  chainsAmong r buckets (List.range bucketCount)

end Snapshot

/-- Pictures the heap, if the walk over its blocks stays within the region and every link that is
    followed is an address. -/
def Heap.snapshot {A : Type} [Arena A] : HeapM A Snapshot := do
  let h ← get
  let r ← Heap.region
  let (blocks, epilogue) ← Snapshot.blocksFrom r h.firstBlock
  return ⟨blocks, epilogue, ← Snapshot.chains r h.store.buckets⟩

end BoundaryTag
