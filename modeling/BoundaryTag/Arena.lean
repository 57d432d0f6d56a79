/-
  BoundaryTag.Arena — where a heap gets its memory: one region that grows at its high end.

  A heap never takes memory by itself. It asks its arena for more, and the arena answers with the
  old high end, which is where the new bytes start, or with the reason why it cannot. Bytes that
  were handed out never move.
-/

import BoundaryTag.Error

namespace BoundaryTag

class Arena (A : Type) where
  low : A → Nat
  /-- One past the highest address of the region. -/
  high : A → Nat
  /-- Grows the region by a number of bytes and answers with its old high end. -/
  extend : Nat → EStateM ArenaError A Nat

namespace Arena

/-- Bytes handed out so far. -/
def length {A : Type} [Arena A] (arena : A) : Nat := high arena - low arena

end Arena

end BoundaryTag
