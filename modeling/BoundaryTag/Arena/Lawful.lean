/-
  BoundaryTag.Arena.Lawful — what a heap relies on when it asks its arena for more.

  An extension answers with the old high end and raises it by just the bytes that were asked
  for, or it fails and moves neither end. That need not be true of every value of an arena's
  type, only of those that are `Sane`, and an extension leaves a sane arena sane.

  Where an arena lies may be settled no sooner than by its first extension. Before that it
  has no high end for a heap to rely on; it is enough that the arena is sane once it has
  given something (`Settles`).
-/

import BoundaryTag.Arena.Fixed

namespace BoundaryTag

class LawfulArena (A : Type) [Arena A] where
  Sane : A → Prop
  extend_ok {a a' : A} {bytes start : Nat} : Sane a → Arena.extend bytes a = .ok start a' →
    start = Arena.high a ∧ Arena.low a' = Arena.low a ∧ Arena.high a' = Arena.high a + bytes ∧
      Arena.high a' < wordLimit ∧ Sane a'
  extend_error {a a' : A} {bytes : Nat} {e : ArenaError} : Sane a →
  Arena.extend bytes a = .error e a' →
    Arena.low a' = Arena.low a ∧ Arena.high a' = Arena.high a ∧ Sane a'

namespace LawfulArena

variable {A : Type} [Arena A] [LawfulArena A]

/-- An extension that succeeds leaves the arena sane, with the new range at its high end. -/
def Settles (a : A) : Prop := ∀ {bytes start : Nat} {a' : A}, Arena.extend bytes a = .ok start a' →
  Arena.high a' = start + bytes ∧ Arena.high a' < wordLimit ∧ Sane a'

theorem Sane.settles {a : A} (hs : Sane a) : Settles a := by
  intro bytes start a' hx
  obtain ⟨rfl, -, hhigh, hlt, hsane⟩ := extend_ok hs hx
  exact ⟨hhigh, hlt, hsane⟩

end LawfulArena

/-- A reserved range is lawful whatever was handed out of it. -/
instance : LawfulArena FixedArena where
  Sane _ := True
  extend_ok := by
    intro a a' bytes start _ h
    have hlt := a'.base_add_capacity_lt
    have hle := a'.used_le
    simp only [Arena.extend, FixedArena.extend] at h
    split at h
    · obtain ⟨rfl, rfl⟩ : _ = start ∧ _ = a' := by injection h; exact ⟨‹_›, ‹_›⟩
      simp only [Arena.high] at hlt hle ⊢
      exact ⟨trivial, rfl, by omega, by omega, trivial⟩
    · cases h
  extend_error := by
    intro a a' bytes e _ h
    simp only [Arena.extend, FixedArena.extend] at h
    split at h
    · cases h
    · injection h with _ h
      exact ⟨by rw [h], by rw [h], trivial⟩

end BoundaryTag
