/-
  BoundaryTag.Buckets — the heads of the free lists, and searches along the lists.

  A bucket is a doubly linked list threaded through free blocks of one class; only its head is kept
  outside the region. The lists of exact classes are in no order, the others ascend by size, so the
  first block that fits a request is the best fit of its bucket. A list in a region of `span` bytes
  has fewer than `span` blocks, which bounds every walk.
-/

import BoundaryTag.Region
import BoundaryTag.SizeClass

namespace BoundaryTag

structure Buckets where
  heads : Vector (Option Nat) bucketCount
  deriving DecidableEq, Repr

namespace Buckets

def empty : Buckets := ⟨Vector.replicate bucketCount none⟩

def head (buckets : Buckets) (cls : Nat) : Option Nat := (buckets.heads[cls]?).getD none

def setHead (buckets : Buckets) (cls : Nat) (bp : Option Nat) : Buckets :=
  ⟨buckets.heads.setIfInBounds cls bp⟩

/-- Where a block of `size` bytes goes in an ascending list: behind the first result, before the
    second. `cur` is the rest of the list and `prev` the block before it. -/
def slotFrom (r : Region) (size : Nat) : Nat → Option Nat → Option Nat →
    Reading (Option Nat × Option Nat)
  | _, prev, none => return (prev, none)
  | 0, _, some _ => throw .endlessList
  | fuel + 1, prev, some bp => do
    if size ≤ (← r.size bp) then return (prev, some bp)
    else slotFrom r size fuel (some bp) (← r.nextLink bp)

/-- The neighbours of a new block of `size` bytes in its list. -/
def slot (r : Region) (buckets : Buckets) (cls size : Nat) : Reading (Option Nat × Option Nat) :=
  if isExact cls then return (none, buckets.head cls)
  else slotFrom r size r.span none (buckets.head cls)

/-- The first block of at least `size` bytes in the rest of a list. -/
def findIn (r : Region) (size : Nat) : Nat → Option Nat → Reading (Option Nat)
  | _, none => return none
  | 0, some _ => throw .endlessList
  | fuel + 1, some bp => do
    let next ← r.nextLink bp
    if size ≤ (← r.size bp) then return some bp
    else findIn r size fuel next

/-- The first block that fits in the first of these buckets that has one. -/
def findAmong (r : Region) (buckets : Buckets) (size : Nat) : List Nat → Reading (Option Nat)
  | [] => return none
  | cls :: rest => do
    match ← findIn r size r.span (buckets.head cls) with
    | some bp => return some bp
    | none => findAmong r buckets size rest

/-- A filed block of at least `size` bytes, searched from the class of `size` upwards. -/
def findFit (r : Region) (buckets : Buckets) (size : Nat) : Reading (Option Nat) := do
  findAmong r buckets size ((List.range bucketCount).drop (← classOf size))

def membersFrom (r : Region) : Nat → Option Nat → Reading (List Nat)
  | _, none => return []
  | 0, some _ => throw .endlessList
  | fuel + 1, some bp => do
    let next ← r.nextLink bp
    return bp :: (← membersFrom r fuel next)

/-- The blocks of a bucket, from its head. -/
def members (r : Region) (buckets : Buckets) (cls : Nat) : Reading (List Nat) :=
  membersFrom r r.span (buckets.head cls)

/-! ## Heads -/

@[simp] theorem head_empty (cls : Nat) : empty.head cls = none := by
  simp only [head, empty, Vector.getElem?_replicate]
  split <;> rfl

theorem head_setHead (buckets : Buckets) {cls : Nat} (h : cls < bucketCount) (bp : Option Nat)
    (c : Nat) :
    (buckets.setHead cls bp).head c = if c = cls then bp else buckets.head c := by
  simp only [head, setHead, Vector.getElem?_setIfInBounds]
  by_cases hc : cls = c
  · subst hc; simp [h]
  · rw [if_neg hc, if_neg (Ne.symm hc)]

end Buckets

end BoundaryTag
