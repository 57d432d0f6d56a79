/-
  BoundaryTag.Memory — byte-addressed memory and the little-endian words in it.

  A memory holds a byte at every address, zero where none was stored. `word` and `setWord` use the
  eight bytes from an address on, aligned or not; `copy` moves a range of bytes as if it read all of
  them first.

  Proved: what each store does to `byte` (`byte_setByte`, `byte_setWord`, `byte_fill`, `byte_copy`),
  and from that what it does to `word` (`word_setWord_same`, `word_setWord_apart`, `word_congr`).
-/

import BoundaryTag.Word
import Std.Data.TreeMap.Lemmas

namespace BoundaryTag

structure Memory where
  cells : Std.TreeMap Nat UInt8

namespace Memory

/-- Fresh memory reads as zero everywhere. -/
def blank : Memory := ⟨{}⟩

def byte (m : Memory) (addr : Nat) : UInt8 := m.cells.getD addr 0

def setByte (m : Memory) (addr : Nat) (b : UInt8) : Memory := ⟨m.cells.insert addr b⟩

/-- The number that bytes spell, least significant first. -/
def ofBytes : List UInt8 → Nat
  | [] => 0
  | b :: bs => b.toNat + 256 * ofBytes bs

/-- The `count` low bytes of a number, least significant first. -/
def toBytes : Nat → Nat → List UInt8
  | 0, _ => []
  | count + 1, n => UInt8.ofNat n :: toBytes count (n / 256)

def read (m : Memory) (addr count : Nat) : List UInt8 := (List.range count).map fun i =>
  m.byte (addr + i)

def store (m : Memory) (addr : Nat) : List UInt8 → Memory
  | [] => m
  | b :: bs => (m.setByte addr b).store (addr + 1) bs

def word (m : Memory) (addr : Nat) : Nat := ofBytes (m.read addr 8)

/-- Stores the low 64 bits of `w`. -/
def setWord (m : Memory) (addr w : Nat) : Memory := m.store addr (toBytes 8 w)

/-- Sets the `count` bytes from `addr` on to `b`. -/
def fill (m : Memory) (addr : Nat) (b : UInt8) : Nat → Memory
  | 0 => m
  | count + 1 => (m.setByte addr b).fill (addr + 1) b count

/-- Stores into `m` the `count` bytes that `source` has from `src` on. -/
def transfer (source : Memory) (m : Memory) (src dst : Nat) : Nat → Memory
  | 0 => m
  | count + 1 => transfer source (m.setByte dst (source.byte src)) (src + 1) (dst + 1) count

def copy (m : Memory) (src dst count : Nat) : Memory := transfer m m src dst count

/-! ## Bytes -/

@[simp] theorem byte_blank (a : Nat) : blank.byte a = 0 := by simp [blank, byte]

theorem byte_setByte (m : Memory) (a : Nat) (b : UInt8) (x : Nat) :
    (m.setByte a b).byte x = if x = a then b else m.byte x := by
  simp only [byte, setByte, Std.TreeMap.getD_insert, Std.LawfulEqCmp.compare_eq_iff_eq]
  by_cases h : a = x
  · subst h; simp
  · simp [h, Ne.symm h]

theorem byte_store (bs : List UInt8) (m : Memory) (a x : Nat) :
    (m.store a bs).byte x = if a ≤ x then (bs[x - a]?).getD (m.byte x) else m.byte x := by
  induction bs generalizing m a with
  | nil => simp [store]
  | cons b bs ih =>
    rw [store, ih, byte_setByte]
    rcases Nat.lt_trichotomy x a with h | rfl | h
    · rw [if_neg (by omega), if_neg (by omega), if_neg (by omega)]
    · rw [if_neg (by omega), if_pos rfl, if_pos (Nat.le_refl _), Nat.sub_self]
      rfl
    · rw [if_pos (by omega), if_neg (by omega), if_pos (by omega),
        show x - a = x - (a + 1) + 1 by omega, List.getElem?_cons_succ]

theorem byte_store_outside {bs : List UInt8} (m : Memory) {a x : Nat}
    (h : ¬ (a ≤ x ∧ x < a + bs.length)) : (m.store a bs).byte x = m.byte x := by
  rw [byte_store]
  split
  · rw [List.getElem?_eq_none (by omega)]
    rfl
  · rfl

theorem length_toBytes (count n : Nat) : (toBytes count n).length = count := by
  induction count generalizing n with
  | zero => rfl
  | succ count ih => simp [toBytes, ih]

theorem getElem_toBytes (count n i : Nat) (h : i < (toBytes count n).length) :
    (toBytes count n)[i] = UInt8.ofNat (n >>> (8 * i)) := by
  induction count generalizing n i with
  | zero => simp [toBytes] at h
  | succ count ih =>
    cases i with
    | zero => simp [toBytes]
    | succ i =>
      simp only [toBytes, List.getElem_cons_succ]
      rw [ih, Nat.mul_succ, Nat.add_comm, Nat.shiftRight_add, Nat.shiftRight_eq_div_pow n 8]

theorem byte_setWord (m : Memory) (a w x : Nat) :
    (m.setWord a w).byte x = if a ≤ x ∧ x < a + 8 then UInt8.ofNat (w >>> (8 * (x - a)))
    else m.byte x := by
  rw [setWord, byte_store]
  by_cases h : a ≤ x ∧ x < a + 8
  · have hlen : x - a < (toBytes 8 w).length := by rw [length_toBytes]; omega
    rw [if_pos h.1, if_pos h, List.getElem?_eq_getElem hlen, Option.getD_some, getElem_toBytes]
  · rw [if_neg h]
    split
    · rw [List.getElem?_eq_none (by rw [length_toBytes]; omega), Option.getD_none]
    · rfl

theorem byte_fill (count : Nat) (m : Memory) (a : Nat) (b : UInt8) (x : Nat) :
    (m.fill a b count).byte x = if a ≤ x ∧ x < a + count then b else m.byte x := by
  induction count generalizing m a with
  | zero => rw [fill, if_neg (by omega)]
  | succ count ih =>
    rw [fill, ih, byte_setByte]
    by_cases hx : x = a
    · subst hx; simp
    · by_cases h : a + 1 ≤ x ∧ x < a + 1 + count
      · rw [if_pos h, if_pos (by omega)]
      · rw [if_neg h, if_neg hx, if_neg (by omega)]

theorem byte_transfer (source : Memory) (count : Nat) (m : Memory) (src dst x : Nat) :
    (transfer source m src dst count).byte x =
      if dst ≤ x ∧ x < dst + count then source.byte (src + (x - dst)) else m.byte x := by
  induction count generalizing m src dst with
  | zero => rw [transfer, if_neg (by omega)]
  | succ count ih =>
    rw [transfer, ih, byte_setByte]
    by_cases hx : x = dst
    · subst hx; rw [if_neg (by omega), if_pos rfl, if_pos (by omega), Nat.sub_self, Nat.add_zero]
    · by_cases h : dst + 1 ≤ x ∧ x < dst + 1 + count
      · rw [if_pos h, if_pos (by omega), show src + 1 + (x - (dst + 1)) = src + (x - dst) by omega]
      · rw [if_neg h, if_neg hx, if_neg (by omega)]

theorem byte_copy (m : Memory) (src dst count x : Nat) :
    (m.copy src dst count).byte x =
      if dst ≤ x ∧ x < dst + count then m.byte (src + (x - dst)) else m.byte x :=
  byte_transfer m count m src dst x

/-! ## Words -/

theorem byteLimit_succ (count : Nat) : 1 <<< (8 * (count + 1)) = 256 * 1 <<< (8 * count) := by
  rw [Nat.mul_succ, Nat.shiftLeft_add, Nat.shiftLeft_eq _ 8, Nat.mul_comm]

theorem ofBytes_toBytes (count n : Nat) : ofBytes (toBytes count n) = n % 1 <<< (8 * count) := by
  induction count generalizing n with
  | zero => rw [toBytes, ofBytes, Nat.mul_zero, Nat.shiftLeft_zero, Nat.mod_one]
  | succ count ih =>
    have hb : (UInt8.ofNat n).toNat = n % 256 := UInt8.toNat_ofNat
    rw [toBytes, ofBytes, ih, byteLimit_succ, Nat.mod_mul, hb]

theorem toBytes_ofBytes (bs : List UInt8) : toBytes bs.length (ofBytes bs) = bs := by
  induction bs with
  | nil => rfl
  | cons b bs ih =>
    have hb : b.toNat < 256 := b.toNat_lt
    rw [List.length_cons, ofBytes, toBytes,
      show (b.toNat + 256 * ofBytes bs) / 256 = ofBytes bs by omega, ih]
    have hlow : (UInt8.ofNat (b.toNat + 256 * ofBytes bs)).toNat = (b.toNat + 256 * ofBytes bs) %
        256 := UInt8.toNat_ofNat
    rw [UInt8.toNat_inj.mp
      (show (UInt8.ofNat (b.toNat + 256 * ofBytes bs)).toNat = b.toNat by omega)]

theorem length_read (m : Memory) (a count : Nat) : (m.read a count).length = count := by
  rw [read, List.length_map, List.length_range]

theorem word_congr {m m' : Memory} {a : Nat} (h : ∀ x, a ≤ x → x < a + 8 → m.byte x = m'.byte x) :
    m.word a = m'.word a := by
  unfold word read
  congr 1
  refine List.map_congr_left fun i hi => h _ (by omega) ?_
  have := List.mem_range.mp hi
  omega

theorem word_setWord_same (m : Memory) (a w : Nat) : (m.setWord a w).word a = w % wordLimit := by
  have : (m.setWord a w).read a 8 = toBytes 8 w := by
    refine List.ext_getElem (by rw [length_read, length_toBytes]) fun i h₁ h₂ => ?_
    rw [length_toBytes] at h₂
    simp only [read, List.getElem_map, List.getElem_range, getElem_toBytes]
    rw [byte_setWord, if_pos (by omega), show a + i - a = i by omega]
  rw [word, this, ofBytes_toBytes]
  rfl

theorem word_setWord_apart (m : Memory) {a b : Nat} (w : Nat) (h : a + 8 ≤ b ∨ b + 8 ≤ a) :
    (m.setWord a w).word b = m.word b :=
  word_congr fun x _ _ => by rw [byte_setWord, if_neg (by omega)]

theorem word_setWord_of_lt (m : Memory) {a w : Nat} (h : w < wordLimit) :
    (m.setWord a w).word a = w := by
  rw [word_setWord_same, Nat.mod_eq_of_lt h]

theorem byte_setWord_apart (m : Memory) {a x : Nat} (w : Nat) (h : x < a ∨ a + 8 ≤ x) :
    (m.setWord a w).byte x = m.byte x := by
  rw [byte_setWord, if_neg (by omega)]

theorem byte_setWord_word (m : Memory) (a x : Nat) :
    (m.setWord a (m.word a)).byte x = m.byte x := by
  have hbytes : toBytes 8 (m.word a) = m.read a 8 := by
    rw [word, ← length_read m a 8, length_read m a 8]
    exact (congrArg (toBytes · _) (length_read m a 8).symm).trans (toBytes_ofBytes _)
  rw [setWord, hbytes, byte_store]
  split
  next hle =>
    by_cases hlt : x - a < 8
    · rw [List.getElem?_eq_getElem (by rwa [length_read]), Option.getD_some]
      simp only [read, List.getElem_map, List.getElem_range]
      rw [Nat.add_sub_cancel' hle]
    · rw [List.getElem?_eq_none (by rw [length_read]; omega), Option.getD_none]
  next => rfl

/-- A word has its bytes. -/
theorem byte_eq_of_word {m m' : Memory} {a x : Nat} (hw : m'.word a = m.word a) (h₁ : a ≤ x)
    (h₂ : x < a + 8) : m'.byte x = m.byte x := by
  rw [← byte_setWord_word m' a x, ← byte_setWord_word m a x, byte_setWord, byte_setWord,
    if_pos ⟨h₁, h₂⟩, if_pos ⟨h₁, h₂⟩, hw]

@[simp] theorem word_blank (a : Nat) : blank.word a = 0 := by
  simp [word, read, List.range, List.range.loop, ofBytes]

end Memory

end BoundaryTag
