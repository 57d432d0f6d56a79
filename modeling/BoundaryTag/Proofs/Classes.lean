/-
  BoundaryTag.Proofs.Classes — each class is an interval of sizes, and the intervals follow
  one another without a gap.

  A size is halved as long as it is above 256, rounding down. It is still above 256 after `k`
  halvings just if it was at least `257 * 2 ^ k` to begin with. So no doubling class begins
  right above a power of two: the class of 512 goes on up to 513, the next one up to 1027, and
  the last begins at 65792.

  Proved: how often a size is halved (`lt_halvings_iff`) and where a class begins
  (`le_sizeClass_iff`); from that the order of the classes, the sizes of each, and that
  multiples of a word up to 256 have one each (`sizeClass_intervals`).
-/

import BoundaryTag.SizeClass
import Mathlib.Algebra.GroupWithZero.Nat
import Mathlib.Data.Set.Function

namespace BoundaryTag

variable {size c k : Nat}

theorem lt_halvings_iff {most : Nat} : k < halvings most size ↔ k < most ∧ 257 * 2 ^ k ≤ size := by
  induction most generalizing size k with
  | zero => simp [halvings]
  | succ most ih =>
    simp only [halvings, exactLimit]
    by_cases hle : size ≤ 256
    · have hpos : 1 ≤ 2 ^ k := Nat.one_le_two_pow
      rw [if_pos hle]
      omega
    · rw [if_neg hle]
      cases k with
      | zero => omega
      | succ k =>
        have hdouble : 257 * 2 ^ (k + 1) = 257 * 2 ^ k * 2 := by rw [Nat.pow_succ, Nat.mul_assoc]
        rw [Nat.add_lt_add_iff_right, Nat.add_lt_add_iff_right, ih,
          Nat.le_div_iff_mul_le (by decide), hdouble]

/-- The loop halves while the size is above the limit, and stops when it no longer is, or has
    halved as often as it may. -/
theorem halvings_stop (most size : Nat) :
    (∀ j < halvings most size, exactLimit < size / 2 ^ j) ∧
    (size / 2 ^ halvings most size ≤ exactLimit ∨ halvings most size = most) := by
  constructor
  · intro j hj
    exact (Nat.le_div_iff_mul_le (Nat.two_pow_pos j)).mpr (lt_halvings_iff.mp hj).2
  · rcases Nat.lt_or_ge (halvings most size) most with hlt | hge
    · have hsmall : size < 257 * 2 ^ halvings most size :=
        Nat.lt_of_not_le fun hle => Nat.lt_irrefl _ (lt_halvings_iff.mpr ⟨hlt, hle⟩)
      exact .inl (Nat.le_of_lt_succ ((Nat.div_lt_iff_lt_mul (Nat.two_pow_pos _)).mpr hsmall))
    · exact .inr (Nat.le_antisymm (halvings_le most size) hge)

/-- The least size of a class. -/
def classStart (c : Nat) : Nat := if c < exactClasses then minBlock + wordSize * c
    else 257 * 2 ^ (c - exactClasses)

theorem sizeClass_small (h : size ≤ 256) : sizeClass size = (size - 32) / 8 := if_pos h

theorem sizeClass_large (h : 256 < size) : sizeClass size = 28 + halvings 9 size :=
  if_neg (Nat.not_le.mpr h)

theorem classStart_exact (h : c < 29) : classStart c = 32 + 8 * c := if_pos h

theorem classStart_doubling (k : Nat) : classStart (29 + k) = 257 * 2 ^ k := by
  rw [classStart, if_neg (Nat.not_lt.mpr (Nat.le_add_right 29 k)), exactClasses,
    Nat.add_sub_cancel_left]

theorem le_sizeClass_iff (hc : c < 38) (h32 : 32 ≤ size) : c ≤ sizeClass size ↔
    classStart c ≤ size := by
  by_cases hexact : c < 29
  · rw [classStart_exact hexact]
    rcases Nat.lt_or_ge 256 size with hlarge | hsmall
    · rw [sizeClass_large hlarge]
      omega
    · rw [sizeClass_small hsmall]
      omega
  · obtain ⟨k, rfl⟩ := Nat.exists_eq_add_of_le (Nat.not_lt.mp hexact)
    rw [classStart_doubling]
    rcases Nat.lt_or_ge 256 size with hlarge | hsmall
    · have hhalve : k < halvings 9 size ↔ k < 9 ∧ 257 * 2 ^ k ≤ size := lt_halvings_iff
      rw [sizeClass_large hlarge]
      omega
    · have hpos : 1 ≤ 2 ^ k := Nat.one_le_two_pow
      rw [sizeClass_small hsmall]
      omega

/-- All classes but the last end where the next one begins. -/
theorem sizeClass_eq_iff (hc : c < 37) (h32 : 32 ≤ size) :
    sizeClass size = c ↔ classStart c ≤ size ∧ size < classStart (c + 1) := by
  have hfrom := le_sizeClass_iff (c := c) (by omega) h32
  have hnext := le_sizeClass_iff (c := c + 1) (by omega) h32
  omega

theorem sizeClass_last_iff (h32 : 32 ≤ size) : sizeClass size = 37 ↔ 257 * 2 ^ 8 ≤ size := by
  have hfrom : 37 ≤ sizeClass size ↔ 257 * 2 ^ 8 ≤ size := le_sizeClass_iff (by decide) h32
  have hlt : sizeClass size < 38 := sizeClass_lt size
  omega

/-- Up to the limit, the classes number the multiples of a word. -/
theorem sizeClass_bijOn : Set.BijOn sizeClass {s | s % 8 = 0 ∧ 32 ≤ s ∧ s ≤ 256} {c | c ≤ 28} := by
  refine ⟨?_, ?_, ?_⟩
  · intro s hs
    obtain ⟨-, -, hle⟩ := hs
    show sizeClass s ≤ 28
    rw [sizeClass_small hle]
    omega
  · intro a ha b hb hab
    obtain ⟨ha8, ha32, hale⟩ := ha
    obtain ⟨hb8, hb32, hble⟩ := hb
    rw [sizeClass_small hale, sizeClass_small hble] at hab
    omega
  · intro c hc
    have hc : c ≤ 28 := hc
    refine ⟨32 + 8 * c, ⟨by omega, by omega, by omega⟩, ?_⟩
    rw [sizeClass_small (by omega)]
    omega

/-- An exact class has one size. -/
theorem sizeClass_exact {a b : Nat} (ha : a % 8 = 0) (hb : b % 8 = 0) (ha32 : 32 ≤ a)
    (hb32 : 32 ≤ b) (hex : isExact (sizeClass a) = true)
    (hab : sizeClass a = sizeClass b) : a = b := by
  have hlt : sizeClass a < 29 := by simpa [isExact] using hex
  have hsmall : ∀ n, 32 ≤ n → sizeClass n < 29 → n ≤ 256 := fun n hn hc => by
    have hfrom : 29 ≤ sizeClass n ↔ 257 * 2 ^ 0 ≤ n := le_sizeClass_iff (by decide) hn
    omega
  exact sizeClass_bijOn.injOn ⟨ha, ha32, hsmall a ha32 hlt⟩
    ⟨hb, hb32, hsmall b hb32 (hab ▸ hlt)⟩ hab

/-- Every block size has a class, which the halving of a large size ends with; a larger size has
    no smaller class; up to 256 there is a class for each multiple of a word; and the sizes of
    every class above are those of an interval. -/
theorem sizeClass_intervals :
    (∀ size, 32 ≤ size → classOf size = .ok (sizeClass size) ∧ sizeClass size < 38 ∧ (256 < size →
      ∃ k, sizeClass size = 28 + k ∧ (∀ j < k, 256 < size / 2 ^ j) ∧
      (size / 2 ^ k ≤ 256 ∨ sizeClass size = 37))) ∧
    (∀ a b, a ≤ b → sizeClass a ≤ sizeClass b) ∧
    Set.BijOn sizeClass {s | s % 8 = 0 ∧ 32 ≤ s ∧ s ≤ 256} {c | c ≤ 28} ∧
    (∀ k size, 1 ≤ k → k ≤ 8 → 32 ≤ size →
      (sizeClass size = 28 + k ↔ 257 * 2 ^ (k - 1) ≤ size ∧ size < 257 * 2 ^ k)) ∧
    ∀ size, 32 ≤ size → (sizeClass size = 37 ↔ 257 * 2 ^ 8 ≤ size) := by
  refine ⟨?_, fun _ _ => sizeClass_mono, sizeClass_bijOn, ?_, fun _ => sizeClass_last_iff⟩
  · intro size h32
    refine ⟨if_pos h32, sizeClass_lt size, fun hlarge => ?_⟩
    obtain ⟨hhalved, hstop⟩ := halvings_stop 9 size
    have hclass := sizeClass_large hlarge
    exact ⟨_, hclass, hhalved, hstop.imp_right fun hmost => by rw [hclass, hmost]⟩
  · intro k size h1 h8 h32
    obtain ⟨j, rfl⟩ := Nat.exists_eq_add_of_le' h1
    have hclass : 28 + (j + 1) = 29 + j := by omega
    rw [hclass, Nat.add_sub_cancel, ← classStart_doubling, ← classStart_doubling]
    exact sizeClass_eq_iff (by omega) h32

/-- Where one class ends and the next begins; the last but one ends at 65791, not at 65536. -/
theorem sizeClass_intervals_seams : sizeClass 256 = 28 ∧ sizeClass 257 = 29 ∧ sizeClass 513 = 29 ∧
    sizeClass 514 = 30 ∧
    sizeClass 65791 = 36 ∧ sizeClass 65792 = 37 ∧ classOf 65792 = .ok 37 := by
  obtain ⟨hclass, -, -, hdoubling, hlast⟩ := sizeClass_intervals
  have hseam : sizeClass 65792 = 37 := (hlast 65792 (by decide)).mpr (by decide)
  exact ⟨rfl, (hdoubling 1 257 (by decide) (by decide) (by decide)).mpr (by decide),
    (hdoubling 1 513 (by decide) (by decide) (by decide)).mpr (by decide),
    (hdoubling 2 514 (by decide) (by decide) (by decide)).mpr (by decide),
    (hdoubling 8 65791 (by decide) (by decide) (by decide)).mpr (by decide), hseam, hseam ▸
      (hclass 65792 (by decide)).1⟩

end BoundaryTag
