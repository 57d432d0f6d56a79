/-
  BoundaryTag.Arena.Watched — an arena with a record of what it was asked for.

  The record has the bytes of every extension, also of those that failed. It is as lawful as
  the arena that is watched.
-/

import BoundaryTag.Arena.Lawful

namespace BoundaryTag

structure Watched (A : Type) where
  arena : A
  /-- The bytes of each extension so far, the first one first. -/
  asked : List Nat

namespace Watched

variable {A : Type} [Arena A]

def extend (bytes : Nat) : EStateM ArenaError (Watched A) Nat := fun w =>
  match Arena.extend bytes w.arena with
  | .ok start a => .ok start ⟨a, w.asked ++ [bytes]⟩
  | .error e a => .error e ⟨a, w.asked ++ [bytes]⟩

instance : Arena (Watched A) where
  low w := Arena.low w.arena
  high w := Arena.high w.arena
  extend := extend

theorem extend_apply (bytes : Nat) (w : Watched A) :
    Arena.extend bytes w = match Arena.extend bytes w.arena with
    | .ok start a => .ok start ⟨a, w.asked ++ [bytes]⟩
    | .error e a => .error e ⟨a, w.asked ++ [bytes]⟩ := rfl

instance [LawfulArena A] : LawfulArena (Watched A) where
  Sane w := LawfulArena.Sane w.arena
  extend_ok := by
    intro w w' bytes start hs hrun
    rcases hx : Arena.extend bytes w.arena with ⟨start', a⟩ | ⟨e, a⟩
    · rw [extend_apply, hx] at hrun
      cases hrun
      exact LawfulArena.extend_ok hs hx
    · rw [extend_apply, hx] at hrun
      cases hrun
  extend_error := by
    intro w w' bytes e hs hrun
    rcases hx : Arena.extend bytes w.arena with ⟨start, a⟩ | ⟨e', a⟩
    · rw [extend_apply, hx] at hrun
      cases hrun
    · rw [extend_apply, hx] at hrun
      cases hrun
      exact LawfulArena.extend_error hs hx

end Watched

end BoundaryTag
