/-
  BoundaryTag.Tag — the boundary tag: one word with a block's size and two allocation bits.

  Sizes are multiples of eight, so a word has room for the bits: bit 0 says that the block itself is
  allocated, bit 1 that its physical predecessor is. Bit 2 has no meaning and is dropped on reading.

  Proved: a tag whose size is a multiple of eight survives the round trip (`decode_encode`).
-/

import BoundaryTag.Word

namespace BoundaryTag

structure Tag where
  size : Nat
  prevAlloc : Bool
  alloc : Bool
  deriving DecidableEq, Repr

namespace Tag

def encode (t : Tag) : Nat := t.size ||| 2 * t.prevAlloc.toNat ||| t.alloc.toNat

def decode (word : Nat) : Tag :=
  { size := word / 8 * 8, prevAlloc := word / 2 % 2 == 1, alloc := word % 2 == 1 }

/-! ## Round trips -/

theorem encode_eq_add {t : Tag} (h : t.size % 8 = 0) :
    t.encode = t.size + 2 * t.prevAlloc.toNat + t.alloc.toNat := by
  obtain ⟨size, p, a⟩ := t
  have hs : size = (size / 8) <<< 3 := by simp only at h; rw [Nat.shiftLeft_eq]; omega
  have hb : 2 * p.toNat ||| a.toNat = 2 * p.toNat + a.toNat := by cases p <;> cases a <;> rfl
  have hlt : 2 * p.toNat + a.toNat < 2 ^ 3 := by cases p <;> cases a <;> decide
  simp only [encode, Nat.or_assoc, hb]
  rw [hs, ← Nat.shiftLeft_add_eq_or_of_lt hlt, Nat.add_assoc]

theorem decode_encode {t : Tag} (h : t.size % 8 = 0) : decode t.encode = t := by
  rw [encode_eq_add h]
  obtain ⟨size, p, a⟩ := t
  simp only at h
  cases p <;> cases a <;> simp [decode] <;> omega

theorem decode_size_mod (w : Nat) : (decode w).size % 8 = 0 := Nat.mul_mod_left _ _

end Tag

end BoundaryTag
