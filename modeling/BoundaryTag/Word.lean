/-
  BoundaryTag.Word — the machine word: 64 bits, eight bytes, unsigned.

  Addresses, sizes and words are natural numbers. A sum, difference or product that no word holds
  is a `Fault`, as is every access that the heap's own layout rules out, so that a step either
  computes the mathematical result or stops. Rounding is exact: `align_eq` says that the mask
  arithmetic of `align` is rounding up to a multiple of the word.
-/

namespace BoundaryTag

/-- Bytes in a word. A header, a footer and each link take exactly one. -/
@[simp] abbrev wordSize : Nat := 8

@[simp] abbrev doubleWord : Nat := 16

/-- Header, next link, previous link, footer. -/
@[simp] abbrev minBlock : Nat := 32

/-- Words are the numbers below this one, two to the power of 64. -/
@[simp] abbrev wordLimit : Nat := 18446744073709551616

/-- The largest signed word, which bounds every request and every break increment. -/
@[simp] abbrev signedMax : Nat := 9223372036854775807

/-- Why a step has no result. -/
inductive Fault where
  /-- A sum or product is no word. -/
  | overflow
  /-- A difference is below zero. -/
  | underflow
  /-- An address or word lies outside the region it is used in. -/
  | outside (addr : Nat)
  /-- The bounds are no region: crossed, or not word aligned at the low end. -/
  | bounds (low high : Nat)
  /-- The block before this one is allocated and so has no footer to find it by. -/
  | noFooter (bp : Nat)
  /-- A size below the smallest block belongs to no class. -/
  | undersized (size : Nat)
  | noClass (cls : Nat)
  /-- A block without predecessor in its list is not the head of that list. -/
  | notHead (bp : Nat)
  /-- More bytes are asked of a block than it has. -/
  | overdrawn (asked size : Nat)
  /-- A heap must start on a word boundary. -/
  | unalignedStart (addr : Nat)
  /-- A list is longer than any list of blocks in its region. -/
  | endlessList
  deriving DecidableEq, Repr

def checkedAdd (a b : Nat) : Except Fault Nat :=
  if a + b < wordLimit then .ok (a + b) else .error .overflow

def checkedSub (a b : Nat) : Except Fault Nat :=
  if b ≤ a then .ok (a - b) else .error .underflow

/-- `value` rounded up to a multiple of `alignment`, a power of two, by masking the low bits of
    `value + alignment - 1`. Any other alignment masks just the same bits. -/
def alignTo (value alignment : Nat) : Except Fault Nat := do
  let sum ← checkedAdd value alignment
  let top ← checkedSub sum 1
  let low ← checkedSub alignment 1
  return top &&& (wordLimit - (low + 1))

/-- `value` rounded up to a word. -/
def align (value : Nat) : Except Fault Nat := alignTo value wordSize

def isAligned (addr : Nat) : Except Fault Bool := return (← align addr) == addr

/-- The least multiple of the word that is at least `value`. -/
def roundUp (value : Nat) : Nat := (value + 7) / 8 * 8

/-! ## Rounding -/

theorem checkedAdd_ok {a b : Nat} (h : a + b < wordLimit) : checkedAdd a b = .ok (a + b) := if_pos h

theorem checkedSub_ok {a b : Nat} (h : b ≤ a) : checkedSub a b = .ok (a - b) := if_pos h

theorem eq_of_checkedAdd {a b c : Nat} (h : checkedAdd a b = .ok c) : c = a + b := by
  unfold checkedAdd at h
  split at h
  · exact (Except.ok.inj h).symm
  · cases h

theorem eq_of_checkedSub {a b c : Nat} (h : checkedSub a b = .ok c) : c = a - b := by
  unfold checkedSub at h
  split at h
  · exact (Except.ok.inj h).symm
  · cases h

theorem le_of_checkedSub {a b c : Nat} (h : checkedSub a b = .ok c) : b ≤ a := by
  unfold checkedSub at h
  split at h
  · assumption
  · cases h

/-- Clearing the low `k` bits of a word. -/
theorem and_highMask {x k : Nat} (hx : x < wordLimit) (hk : k ≤ 64) :
    x &&& (wordLimit - (1 <<< k - 1 + 1)) = x >>> k <<< k := by
  have hp : 2 ^ k ≤ 2 ^ 64 := Nat.pow_le_pow_right (by decide) hk
  have hpos : 0 < 2 ^ k := Nat.two_pow_pos k
  have hlim : wordLimit = 2 ^ 64 := by decide
  rw [hlim] at hx ⊢
  rw [Nat.one_shiftLeft]
  apply Nat.eq_of_testBit_eq
  intro i
  rw [Nat.testBit_and, Nat.testBit_two_pow_sub_succ (by omega), Nat.testBit_two_pow_sub_one,
    Nat.testBit_shiftLeft, Nat.testBit_shiftRight]
  by_cases hik : i < k
  · simp [hik, Nat.not_le.mpr hik]
  · have hki : k ≤ i := Nat.not_lt.mp hik
    rw [Nat.add_sub_cancel' hki]
    by_cases hi : i < 64
    · simp [hik, hi, hki]
    · have : x.testBit i = false :=
        Nat.testBit_lt_two_pow
          (Nat.lt_of_lt_of_le hx (Nat.pow_le_pow_right (by decide) (Nat.not_lt.mp hi)))
      simp [hi, hki, this]

/-- At a power of two, aligning is rounding up to the next multiple. -/
theorem alignTo_powerOfTwo {value k : Nat} (hk : k ≤ 64) (h : value + 1 <<< k < wordLimit) :
    alignTo value (1 <<< k) = .ok ((value + 1 <<< k - 1) >>> k <<< k) := by
  have hpos : 0 < 1 <<< k := by rw [Nat.one_shiftLeft]; exact Nat.two_pow_pos k
  simp only [alignTo, checkedAdd_ok h, checkedSub_ok (show 1 ≤ value + 1 <<< k by omega),
    checkedSub_ok (show 1 ≤ 1 <<< k by omega), bind, Except.bind, pure, Except.pure]
  rw [and_highMask (by omega) hk]

theorem align_eq {value : Nat} (h : value + wordSize < wordLimit) :
    align value = .ok (roundUp value) := by
  have hround : (value + 1 <<< 3 - 1) >>> 3 <<< 3 = roundUp value := by
    rw [Nat.shiftLeft_eq, Nat.shiftRight_eq_div_pow]
    rfl
  exact hround ▸ alignTo_powerOfTwo (k := 3) (by decide) h

theorem align_overflow {value : Nat} (h : wordLimit ≤ value + wordSize) :
    align value = .error .overflow := by
  simp only [align, alignTo, checkedAdd, if_neg (Nat.not_lt.mpr h), bind, Except.bind]

theorem isAligned_eq {addr : Nat} (h : addr + wordSize < wordLimit) :
    isAligned addr = .ok (addr % wordSize == 0) := by
  simp only [isAligned, align_eq h, roundUp, wordSize, bind, Except.bind, pure, Except.pure]
  congr 1
  rw [Bool.eq_iff_iff, beq_iff_eq, beq_iff_eq]
  omega

end BoundaryTag
