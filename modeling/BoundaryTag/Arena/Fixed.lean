/-
  BoundaryTag.Arena.Fixed — an arena over an address range that is reserved once.

  The range starts at `base` and has `capacity` bytes; `used` of them are handed out. The region
  grows by moving that mark, up to the capacity.
-/

import BoundaryTag.Arena
import BoundaryTag.Word

namespace BoundaryTag

/-- Addresses that a process can have, two to the power of 47. No larger range can be reserved. -/
abbrev addressSpace : Nat := 140737488355328

structure FixedArena where
  base : Nat
  capacity : Nat
  used : Nat
  base_aligned : base % wordSize = 0
  base_add_capacity_lt : base + capacity < wordLimit
  used_le : used ≤ capacity

namespace FixedArena

/-- Reserves at least `capacity` bytes, in whole words and at least one, at the address `base`. -/
def withCapacity (base capacity : Nat) : Except Fault (Except ArenaError FixedArena) := do
  let capacity ← align (max capacity 1)
  if h : base % wordSize = 0 ∧ base + capacity < wordLimit ∧ capacity ≤ addressSpace then
    return .ok ⟨base, capacity, 0, h.1, h.2.1, Nat.zero_le _⟩
  else
    return .error (.reserve "Cannot allocate memory (os error 12)")

def remaining (a : FixedArena) : Nat := a.capacity - a.used

def extend (bytes : Nat) : EStateM ArenaError FixedArena Nat := fun a =>
  if h : bytes ≤ a.remaining then
    have used_le : a.used + bytes ≤ a.capacity := by
      have := a.used_le
      simp only [remaining] at h
      omega
    .ok (a.base + a.used) { a with used := a.used + bytes, used_le }
  else
    .error (.exhausted bytes a.remaining) a

instance : Arena FixedArena where
  low a := a.base
  high a := a.base + a.used
  extend := extend

end FixedArena

end BoundaryTag
