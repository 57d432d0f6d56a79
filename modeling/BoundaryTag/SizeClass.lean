/-
  BoundaryTag.SizeClass — the classes that free blocks are filed under.

  Up to `exactLimit` each block size has a class of its own. A larger size is halved, rounding down,
  until it drops to the limit, one class per halving; the last class takes every size that would
  need more.

  Proved: every size has one of the `bucketCount` classes (`sizeClass_lt`); a larger size never has
  a smaller class (`sizeClass_mono`).
-/

import BoundaryTag.Word

namespace BoundaryTag

/-- The largest block size with a class of its own. -/
@[simp] abbrev exactLimit : Nat := 256

/-- Classes of one block size each. -/
@[simp] abbrev exactClasses : Nat := 29

/-- Classes that each span twice the sizes of the one before. -/
@[simp] abbrev doublingClasses : Nat := 9

@[simp] abbrev bucketCount : Nat := 38

/-- How often `size` is halved before it is at most `exactLimit`, but no more than `most`. -/
def halvings : Nat → Nat → Nat
  | 0, _ => 0
  | most + 1, size => if size ≤ exactLimit then 0 else halvings most (size / 2) + 1

/-- The class of a block size of at least `minBlock`. -/
def sizeClass (size : Nat) : Nat :=
  if size ≤ exactLimit then (size - minBlock) / wordSize
  else (exactClasses - 1) + halvings doublingClasses size

def isExact (cls : Nat) : Bool := cls < exactClasses

def classOf (size : Nat) : Except Fault Nat :=
  if minBlock ≤ size then .ok (sizeClass size) else .error (.undersized size)

/-! ## Order -/

theorem halvings_le (most size : Nat) : halvings most size ≤ most := by
  induction most generalizing size with
  | zero => exact Nat.le_refl _
  | succ most ih =>
    rw [halvings]
    split
    · exact Nat.zero_le _
    · exact Nat.succ_le_succ (ih _)

theorem halvings_mono (most : Nat) {a b : Nat} (h : a ≤ b) : halvings most a ≤ halvings most b := by
  induction most generalizing a b with
  | zero => exact Nat.le_refl _
  | succ most ih =>
    simp only [halvings, exactLimit]
    by_cases ha : a ≤ 256
    · rw [if_pos ha]; exact Nat.zero_le _
    · rw [if_neg ha, if_neg (by omega)]
      exact Nat.succ_le_succ (ih (Nat.div_le_div_right h))

theorem sizeClass_lt (size : Nat) : sizeClass size < bucketCount := by
  have := halvings_le 9 size
  simp only [sizeClass, exactLimit, minBlock, wordSize, exactClasses, doublingClasses, bucketCount]
  split <;> omega

theorem sizeClass_mono {a b : Nat} (h : a ≤ b) : sizeClass a ≤ sizeClass b := by
  have := halvings_mono 9 h
  simp only [sizeClass, exactLimit, minBlock, wordSize, exactClasses, doublingClasses]
  split <;> split <;> omega

end BoundaryTag
