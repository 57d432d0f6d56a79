/-
  BoundaryTag.Store — free lists over memory, and the blocks that move in and out of them.

  A store is a memory with the buckets of the free blocks in it. `insert` and `remove` keep a
  bucket's links; `split`, `coalesce`, `growInPlace` and `free` change the blocks themselves and
  leave every free block filed and none next to another.

  A fault leaves what was done before it.
-/

import BoundaryTag.Buckets

namespace BoundaryTag

structure Store where
  memory : Memory
  buckets : Buckets

abbrev StoreM := EStateM Fault Store

instance : MonadLift Writing StoreM where
  monadLift x := fun s => match x s.memory with
    | .ok a m => .ok a { s with memory := m }
    | .error f m => .error f { s with memory := m }

namespace Store

/-! ## Filing -/

def setHead (cls : Nat) (bp : Option Nat) : StoreM Unit :=
  modify fun s => { s with buckets := s.buckets.setHead cls bp }

/-- Files the free block `bp` under the class of its size: at the head of an exact class, before the
    first block that is not smaller elsewhere. -/
def insert (r : Region) (bp : Nat) : StoreM Unit := do
  let size ← r.size bp
  let cls ← classOf size
  let (prev, next) ← (← get).buckets.slot r cls size
  r.setNext bp next
  r.setPrev bp prev
  if let some next := next then
    r.setPrev next (some bp)
  match prev with
  | some prev => r.setNext prev (some bp)
  | none => setHead cls (some bp)

/-- Takes the filed block `bp` out of its list. Its header must still have the size it was filed
    with. -/
def remove (r : Region) (bp : Nat) : StoreM Unit := do
  let cls ← classOf (← r.size bp)
  let ⟨next, prev⟩ ← r.links bp
  match prev with
  | some prev => r.setNext prev next
  | none =>
    if (← get).buckets.head cls != some bp then
      throw (.notHead bp)
    setHead cls next
  if let some next := next then
    r.setPrev next prev

/-! ## Blocks -/

/-- Merges the free block `bp`, which is not filed, with its free physical neighbours, files the
    result and returns it. -/
def coalesce (r : Region) (bp : Nat) : StoreM Nat := do
  let tag ← r.tag bp
  let next ← r.above bp
  let nextTag ← r.tag next
  let (bp, size, prevAlloc) ← match tag.prevAlloc, nextTag.alloc with
    | true, true => pure (bp, tag.size, tag.prevAlloc)
    | true, false => do
      remove r next
      pure (bp, ← checkedAdd tag.size nextTag.size, tag.prevAlloc)
    | false, true => do
      let prev ← r.below bp
      let prevTag ← r.tag prev
      remove r prev
      pure (prev, ← checkedAdd prevTag.size tag.size, prevTag.prevAlloc)
    | false, false => do
      let prev ← r.below bp
      let prevTag ← r.tag prev
      remove r prev
      remove r next
      let size ← checkedAdd prevTag.size tag.size
      pure (prev, ← checkedAdd size nextTag.size, prevTag.prevAlloc)
  r.writeFree bp size prevAlloc
  insert r bp
  return bp

/-- Allocates the first `size` bytes of the block `bp`, which is not filed. What is left over goes
    back to the free lists if it can be a block, and stays with the allocation if it cannot. -/
def split (r : Region) (bp size : Nat) : StoreM Unit := do
  let tag ← r.tag bp
  if tag.size < size then
    throw (.overdrawn size tag.size)
  let remainder := tag.size - size
  if minBlock ≤ remainder then
    r.writeAllocated bp size tag.prevAlloc
    let rest ← r.above bp
    r.writeFree rest remainder true
    r.setPrevAlloc (← r.above rest) false
    discard <| coalesce r rest
  else
    r.writeAllocated bp tag.size tag.prevAlloc
    r.setPrevAlloc (← r.above bp) true

/-- Allocates `size` bytes of the filed block `bp`. -/
def place (r : Region) (bp size : Nat) : StoreM Unit := do
  remove r bp
  split r bp size

/-- Lets the allocated block `bp` take in its free successor, if that makes it big enough. Tells
    whether it did. -/
def growInPlace (r : Region) (bp size : Nat) : StoreM Bool := do
  let tag ← r.tag bp
  let next ← r.above bp
  let nextTag ← r.tag next
  if nextTag.alloc then return false
  let total ← checkedAdd tag.size nextTag.size
  if total < size then return false
  remove r next
  r.writeAllocated bp total tag.prevAlloc
  split r bp size
  return true

/-- Turns the allocated block `bp` into a free one, merged with its neighbours and filed. -/
def free (r : Region) (bp : Nat) : StoreM Unit := do
  let tag ← r.tag bp
  r.writeFree bp tag.size tag.prevAlloc
  r.setPrevAlloc (← r.above bp) false
  discard <| coalesce r bp

end Store

end BoundaryTag
