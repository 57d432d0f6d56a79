/-
  BoundaryTag.Request — the block size that a request needs.

  A block holds the payload and a header, in whole words, and is never smaller than a free block's
  own words.

  Proved: `blockSize_eq`, the size is the least that fits, for every request that is not refused.
-/

import BoundaryTag.Error
import BoundaryTag.Word

namespace BoundaryTag

/-- Requests are refused when their block could not be counted by a signed word. -/
def blockSize (request : Nat) : Except HeapError Nat :=
  if request > signedMax - doubleWord then .error (.requestTooLarge request)
  else .ok (max (roundUp (request + wordSize)) minBlock)

theorem blockSize_eq {request : Nat} (h : request ≤ signedMax - doubleWord) :
    ∃ size, blockSize request = .ok size ∧ size % 8 = 0 ∧ 32 ≤ size ∧ request + 8 ≤ size ∧
      ∀ n, n % 8 = 0 → 32 ≤ n → request + 8 ≤ n → size ≤ n := by
  refine ⟨_, if_neg (Nat.not_lt.mpr h), ?_⟩
  simp only [roundUp, wordSize, minBlock]
  refine ⟨by omega, by omega, by omega, fun n h₁ h₂ h₃ => by omega⟩

theorem blockSize_refused {request : Nat} (h : signedMax - doubleWord < request) :
    blockSize request = .error (.requestTooLarge request) := if_pos h

end BoundaryTag
