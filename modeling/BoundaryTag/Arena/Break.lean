/-
  BoundaryTag.Arena.Break — an arena over the program break, which others may move too.

  The arena claims the break when it is first extended: the region starts there, rounded up to a
  word. From then on it grows by moving the break. When the break is not where the arena left it,
  a third party has moved it; the arena takes its own move back and refuses, rather than hand out
  memory that is not its own. Before the claim both bounds are zero.
-/

import BoundaryTag.Arena
import BoundaryTag.Word

namespace BoundaryTag

/-- The system's side of the break. -/
class BreakSystem (S : Type) where
  current : S → Nat
  /-- Moves the break by a signed distance and answers with the old one, or with none when the
      system refuses. -/
  shift : Int → S → Option Nat × S

/-- A break that moves freely within the addresses that a process can have. -/
structure ProcessBreak where
  /-- The break never goes below the end of the program's own data. -/
  floor : Nat
  ceiling : Nat
  current : Nat
  deriving DecidableEq, Repr

namespace ProcessBreak

def shift (d : Int) (s : ProcessBreak) : Option Nat × ProcessBreak :=
  let moved := (s.current : Int) + d
  if (s.floor : Int) ≤ moved ∧ moved ≤ (s.ceiling : Int) then
    (some s.current, { s with current := moved.toNat })
  else (none, s)

instance : BreakSystem ProcessBreak where
  current := current
  shift := shift

end ProcessBreak

structure BreakArena (S : Type) where
  low : Nat
  high : Nat
  system : S

namespace BreakArena

variable {S : Type} [BreakSystem S]

def unclaimed (system : S) : BreakArena S := ⟨0, 0, system⟩

/-- Moves the break on behalf of the arena. -/
def shift (d : Int) : EStateM ArenaError (BreakArena S) (Option Nat) := fun a =>
  let (old, system) := BreakSystem.shift d a.system
  .ok old { a with system }

/-- Takes the current break, rounded up to a word, as both bounds. The addresses at the top
    of the word stand for errors, so the break is never among them and rounding it up is no
    sum that could overflow. -/
def claim : EStateM ArenaError (BreakArena S) Unit := do
  let current := BreakSystem.current (← get).system
  let pad := roundUp current - current
  if 0 < pad then
    if (← shift pad).isNone then
      throw (.exhausted pad 0)
  modify fun a => { a with low := current + pad, high := current + pad }

def extend (bytes : Nat) : EStateM ArenaError (BreakArena S) Nat := do
  if signedMax < bytes then
    throw (.tooLarge bytes)
  if (← get).high = 0 then
    claim
  match ← shift bytes with
  | none => throw (.exhausted bytes 0)
  | some old =>
    let high := (← get).high
    if old ≠ high then
      discard <| shift (-bytes)
      throw (.discontiguous high old)
    modify fun a => { a with high := high + bytes }
    if old = 0 then
      throw (.exhausted bytes 0)
    return old

instance : Arena (BreakArena S) where
  low := low
  high := high
  extend := extend

end BreakArena

end BoundaryTag
